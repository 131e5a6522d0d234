import DotnetPal.Memfs.Listing

/-!
# What each deed makes the watchers hear

Every deed that is not about a watcher itself leaves each watcher one that heard of it: watches end
only with the last name of their node, and the news of names that a watch of a directory heard
replay to the listing the deed left.
-/

open Std Option

namespace DotnetPal.Memfs

open Programs

attribute [local instance] lexOrd

namespace State

/-- The node is there under some name. -/
def Named (s : State) (id : ℕ) : Prop := ∃ node, s.nodes[id]? = some node ∧ 0 < node.links

/-- What holds of the watchers between calls. -/
structure Watched (s : State) : Prop where
  sound : ∀ (key : ℕ) (w : Watcher), s.watchers[key]? = some w → w.Sound
  live : ∀ (key : ℕ) (w : Watcher) (watch : Watch), s.watchers[key]? = some w →
    watch ∈ w.watches.data → s.Named watch.node
  below : ∀ (key : ℕ) (w : Watcher), s.watchers[key]? = some w → key < s.nextWatcher

/-- What a deed made the watchers hear: `news` of the names of each directory. -/
structure Told (s : State) (news : ℕ → News) (s' : State) : Prop where
  heard : Heard (fun node ↦ ¬s'.Named node) news s s'
  watchers_below : s'.nextWatcher = s.nextWatcher
  /-- Where a node lost its last name no watch of it is left. -/
  named : ∀ node, s.Named node → s'.Named node ∨
    ∀ (key : ℕ) (w : Watcher), s'.watchers[key]? = some w → ∀ watch ∈ w.watches.data,
      watch.node ≠ node

variable {s middle s' : State} {news more : ℕ → News} {env : Env}

theorem Watched.of_told (h : s.Watched) (told : s.Told news s') : s'.Watched where
  sound := by
    intro key w hwatcher
    obtain ⟨old, hold, hhears⟩ := told.heard key w hwatcher
    exact (h.sound key old hold).steps hhears.steps
  live := by
    intro key w watch hwatcher hwatch
    obtain ⟨old, hold, hhears⟩ := told.heard key w hwatcher
    rcases told.named watch.node (h.live key old watch hold (hhears.subset watch hwatch))
      with hnamed | hnone
    · exact hnamed
    · exact absurd rfl (hnone key w hwatcher watch hwatch)
  below := by
    intro key w hwatcher
    obtain ⟨old, hold, _⟩ := told.heard key w hwatcher
    rw [told.watchers_below]
    exact h.below key old hold

/-- Nodes that keep their names keep their watches. -/
theorem Told.of_heard (heard : Heard (fun _ ↦ False) news s s')
    (hbelow : s'.nextWatcher = s.nextWatcher) (hnamed : ∀ node, s.Named node → s'.Named node) :
    s.Told news s' :=
  ⟨heard.mono fun _ h ↦ h.elim, hbelow, fun node h ↦ .inl (hnamed node h)⟩

theorem Told.trans (a : s.Told news middle) (b : middle.Told more s')
    (hstays : ∀ node, ¬middle.Named node → ¬s'.Named node) :
    s.Told (fun dir ↦ news dir ++ more dir) s' where
  heard := (a.heard.mono hstays).trans b.heard
  watchers_below := b.watchers_below.trans a.watchers_below
  named := by
    intro node hnode
    rcases a.named node hnode with hmiddle | hnone
    · exact b.named node hmiddle
    · refine .inr fun key w hwatcher watch hwatch ↦ ?_
      obtain ⟨old, hold, hhears⟩ := b.heard key w hwatcher
      exact hnone key old hold watch (hhears.subset watch hwatch)

theorem Told.after_quiet (a : s.Told (fun _ ↦ []) middle) (b : middle.Told news s')
    (hstays : ∀ node, ¬middle.Named node → ¬s'.Named node) : s.Told news s' :=
  a.trans b hstays

theorem Told.before_quiet (a : s.Told news middle) (b : middle.Told (fun _ ↦ []) s')
    (hstays : ∀ node, ¬middle.Named node → ¬s'.Named node) : s.Told news s' := by
  have htrans := a.trans b hstays
  simpa only [List.append_nil] using htrans

/-! ## Small changes -/

variable {change : Node → Node}

theorem named_modifyNode {id : ℕ} (hlinks : ∀ node, (change node).links = node.links)
    (j : ℕ) : (s.modifyNode id change).Named j ↔ s.Named j := by
  unfold Named
  rw [modifyNode, OrderedMap.get_modify]
  split
  · constructor
    · rintro ⟨node, hnode, hpos⟩
      obtain ⟨old, hold, rfl⟩ := map_eq_some_iff.mp hnode
      exact ⟨old, hold, by rwa [hlinks] at hpos⟩
    · rintro ⟨node, hnode, hpos⟩
      exact ⟨change node, by rw [hnode]; rfl, by rwa [hlinks]⟩
  · exact Iff.rfl

theorem named_reportEntry (env : Env) (dir : ℕ) (name : Bytes) (kinds cookie : UInt32) (j : ℕ) :
    (s.reportEntry env dir name kinds cookie).Named j ↔ s.Named j := Iff.rfl

/-- Neither names nor watchers change. -/
theorem Told.of_eq (hwatchers : s'.watchers = s.watchers) (hbelow : s'.nextWatcher = s.nextWatcher)
    (hnamed : ∀ node, s.Named node → s'.Named node) : s.Told (fun _ ↦ []) s' :=
  .of_heard (.of_eq hwatchers) hbelow hnamed

theorem named_modifyNode_of_le {id j : ℕ} (hlinks : ∀ node, node.links ≤ (change node).links)
    (h : s.Named j) : (s.modifyNode id change).Named j := by
  obtain ⟨node, hnode, hpos⟩ := h
  by_cases hid : id = j
  · subst hid
    exact ⟨change node, by simp [State.modifyNode, hnode], Nat.lt_of_lt_of_le hpos (hlinks node)⟩
  · exact ⟨node, by simp [State.modifyNode, OrderedMap.get_modify, hid, hnode], hpos⟩

theorem Told.reportEntry (env : Env) (dir : ℕ) {name : Bytes} {kinds : UInt32} (cookie : UInt32)
    (hname : ValidName name) (hnaming : Watcher.Naming kinds) :
    s.Told (fun j ↦ if j = dir then [(kinds, name)] else []) (s.reportEntry env dir name kinds cookie) :=
  .of_heard (.reportEntry env dir cookie hname hnaming) rfl fun _ h ↦ h

theorem plain_attributes : Watcher.Plain Watches.attributes := by
  intro dir
  cases dir <;> decide

theorem plain_access : Watcher.Plain Watches.access := by
  intro dir
  cases dir <;> decide

theorem plain_modify : Watcher.Plain Watches.modify := by
  intro dir
  cases dir <;> decide

/-- Each kind of news is one of the kinds a watch of names asks for. -/
theorem naming_of_bit {kinds : UInt32} (bit : UInt32) (hremoved : kinds &&& Watches.removed = 0)
    (hall : nameKinds &&& bit = bit) (hkinds : kinds &&& bit = bit) (hbit : bit ≠ 0) :
    Watcher.Naming kinds := by
  refine ⟨hremoved, ?_, fun events hevents ↦ and_ne_zero_of_covers hevents hall hkinds hbit⟩
  rw [UInt32.and_comm]
  exact and_ne_zero_of_covers (UInt32.and_self) hall hkinds hbit

theorem naming_create (dir : Bool) : Watcher.Naming (Watches.create ||| mark dir) := by
  cases dir <;> exact naming_of_bit Watches.create (by decide) (by decide) (by decide) (by decide)

theorem naming_delete (dir : Bool) : Watcher.Naming (Watches.delete ||| mark dir) := by
  cases dir <;> exact naming_of_bit Watches.delete (by decide) (by decide) (by decide) (by decide)

theorem naming_movedFrom (dir : Bool) : Watcher.Naming (Watches.movedFrom ||| mark dir) := by
  cases dir <;> exact naming_of_bit Watches.movedFrom (by decide) (by decide) (by decide) (by decide)

theorem naming_movedTo (dir : Bool) : Watcher.Naming (Watches.movedTo ||| mark dir) := by
  cases dir <;> exact naming_of_bit Watches.movedTo (by decide) (by decide) (by decide) (by decide)

/-! ## A node that lost an entry -/

@[simp]
theorem watchers_reaped (id : ℕ) : (s.reaped id).watchers = s.watchers := by
  unfold reaped
  split
  · rfl
  · split <;> rfl

@[simp]
theorem nextWatcher_reaped (id : ℕ) : (s.reaped id).nextWatcher = s.nextWatcher := by
  unfold reaped
  split
  · rfl
  · split <;> rfl

/-- What is left of a node that lost an entry has one link fewer. -/
theorem get_unlinked_self {id : ℕ} {counted : Bool} {x : Node}
    (h : (s.unlinked env id counted).nodes[id]? = some x) :
    ∃ node, s.nodes[id]? = some node ∧ x = node.unlinked env.now := by
  have hget : (s.modifyNode id (Node.unlinked env.now)).nodes[id]? =
    (s.nodes[id]?).map (Node.unlinked env.now) := by
    simp [State.modifyNode]
  cases hnode : s.nodes[id]? with
  | none =>
    unfold unlinked reaped at h
    simp [nodes_applyIf_ended, nodes_applyIf_report, hget, hnode] at h
  | some node =>
    unfold unlinked reaped at h
    simp only [nodes_applyIf_ended, nodes_applyIf_report, hget, hnode, map_some] at h
    split at h
    · simp at h
    · simp only [nodes_applyIf_ended, nodes_applyIf_report, hget, hnode, map_some, some.injEq] at h
      exact ⟨node, rfl, h.symm⟩

theorem Told.unlinked (env : Env) (id : ℕ) (counted : Bool) (hnames : Watcher.Names s.nodes)
    (hsound : ∀ (key : ℕ) (w : Watcher), s.watchers[key]? = some w → w.Sound) :
    s.Told (fun _ ↦ []) (s.unlinked env id counted) := by
  have hget : (s.modifyNode id (Node.unlinked env.now)).nodes[id]? =
    (s.nodes[id]?).map (Node.unlinked env.now) := by
    simp [State.modifyNode]
  have hfewer : Heard (fun _ ↦ False) (fun _ ↦ []) s (applyIf (counted = true)
      (State.report env id Watches.attributes) (s.modifyNode id (Node.unlinked env.now))) :=
    (Heard.of_eq rfl).after_quiet
      (.applyIf fun _ ↦ .report env id (hnames.modify_same id fun _ ↦ rfl) plain_attributes)
  refine ⟨?_, ?_, ?_⟩
  · unfold State.unlinked
    refine (hfewer.mono fun _ h ↦ h.elim).after_quiet
      (.before_quiet (.applyIf fun hlast ↦ ?_) (.of_eq (watchers_reaped ..)))
    refine (Heard.ended env id).mono ?_
    rintro _ rfl ⟨x, hx, hpos⟩
    obtain ⟨before, hbefore, rfl⟩ := get_unlinked_self hx
    rw [hget, hbefore, map_some, map_some, some.injEq] at hlast
    rw [hlast] at hpos
    exact Nat.lt_irrefl 0 hpos
  · unfold State.unlinked
    rw [nextWatcher_reaped]
    unfold applyIf
    split <;> split <;> rfl
  · rintro j ⟨node, hnode, hpos⟩
    by_cases hid : id = j
    · subst hid
      rw [hnode, map_some] at hget
      by_cases hlast : (node.unlinked env.now).links = 0
      · -- The watch of the node was ended in the same call.
        refine .inr fun key w hwatcher watch hwatch ↦ ?_
        unfold State.unlinked at hwatcher
        rw [watchers_reaped, applyIf, if_pos (by rw [hget, map_some, hlast]), State.ended,
          ExtTreeMap.getElem?_map] at hwatcher
        obtain ⟨old, hold, rfl⟩ := map_eq_some_iff.mp hwatcher
        obtain ⟨a, ha, hhears⟩ := hfewer key old hold
        exact Watcher.ended_node_ne ((hsound key a ha).steps hhears.steps) _ _ watch hwatch
      · have hstays : (s.unlinked env id counted).nodes[id]? = some (node.unlinked env.now) := by
          unfold State.unlinked reaped
          simp only [nodes_applyIf_ended, nodes_applyIf_report, hget, hlast, false_and, if_false]
        exact .inl ⟨_, hstays, Nat.pos_of_ne_zero hlast⟩
    · exact .inl ⟨node, by rw [get_unlinked_of_ne env counted hid]; exact hnode, hpos⟩

/-- Losing an entry names nothing. -/
theorem named_of_unlinked {id j : ℕ} {counted : Bool} (h : (s.unlinked env id counted).Named j) :
    s.Named j := by
  obtain ⟨x, hx, hpos⟩ := h
  by_cases hid : id = j
  · subst hid
    obtain ⟨node, hnode, rfl⟩ := get_unlinked_self hx
    exact ⟨node, hnode, Nat.lt_of_lt_of_le hpos (Nat.sub_le _ _)⟩
  · rw [get_unlinked_of_ne env counted hid] at hx
    exact ⟨x, hx, hpos⟩

/-! ## Changes of the tree -/

theorem links_withEntries (change : Entries → Entries) (node : Node) :
    (node.withEntries change).links = node.links := by
  unfold Node.withEntries
  split <;> rfl

theorem links_touched (now : ℕ) (node : Node) : (node.touched now).links = node.links := rfl

theorem links_moved (parent now : ℕ) (node : Node) : (node.moved parent now).links = node.links := by
  unfold Node.moved
  split <;> rfl

variable (hsound : s.core.Sound none)
include hsound

theorem named_added {p : Place} {mode : UInt32} {body : Body} {j : ℕ}
    (h : s.Named j) : (s.added env p mode body).Named j := by
  have hentered : (s.modifyNode p.parent (Node.withEntries (·.insert p.name s.nextId))).Named j :=
    (named_modifyNode (links_withEntries _) j).mpr h
  obtain ⟨node, hnode, hpos⟩ := hentered
  have hnew : s.nextId ≠ j := by
    rintro rfl
    obtain ⟨old, hold, _⟩ := h
    have hnone := hsound.new_free
    rw [Core.get_shapes, get_core] at hnone
    simp [State.core, hold] at hnone
  rw [added, named_modifyNode (links_touched _)]
  refine ⟨node, ?_, hpos⟩
  simpa [addNode, countId, OrderedMap.get_insert, hnew] using hnode

theorem Told.created {p : Place} {mode : UInt32} {body : Body} (hfree : p.Free s) : s.Told (fun dir ↦
        if dir = p.parent then [(Watches.create ||| mark body.directory?.isSome, p.name)] else [])
      (s.created env p mode body) := by
  have hquiet : s.Told (fun _ ↦ []) (s.added env p mode body) :=
    .of_eq rfl rfl fun _ ↦ named_added hsound
  exact hquiet.after_quiet (.reportEntry env _ 0 hfree.name_valid (naming_create _)) fun _ h ↦ h

/-- An entry goes, and then what it named may go. -/
theorem Told.removed (hwatched : s.Watched) {removal : Files.Removal} (counted : Bool)
    (dir : Bool) (he : s.core.child? removal.place.parent removal.place.name = some removal.node) :
    s.Told (fun j ↦
        if j = removal.place.parent then [(Watches.delete ||| mark dir, removal.place.name)] else [])
      (Files.removed env removal counted (Watches.delete ||| mark dir) s) := by
  have hvalid := hsound.tree.valid_names _ _ _ he
  have hquiet : s.Told (fun _ ↦ []) ((s.modifyNode removal.place.parent
      (Node.withEntries (·.erase removal.place.name))).modifyNode removal.place.parent
        (Node.touched env.now)) := by
    refine .of_eq rfl rfl fun node hnode ↦ ?_
    rw [named_modifyNode (links_touched _), named_modifyNode (links_withEntries _)]
    exact hnode
  have hnames : Watcher.Names ((s.modifyNode removal.place.parent
      (Node.withEntries (·.erase removal.place.name))).modifyNode removal.place.parent
        (Node.touched env.now)).nodes :=
    (hsound.names.withEntries_erase _ _).modify_same _ fun _ ↦ rfl
  exact hquiet.after_quiet (.after_quiet (.unlinked env _ counted hnames hwatched.sound)
    (.reportEntry env _ 0 hvalid (naming_delete _)) fun _ h ↦ h) fun _ hnode hnamed ↦
      hnode (named_of_unlinked hnamed)

/-- The entries of a move change, and the directories hear of it. -/
theorem Told.reentered {move : Files.Move} (hmove : move.Sound s) : s.Told (fun j ↦
        (if j = move.source.parent then
          [(Watches.movedFrom ||| mark move.directory, move.source.name)] else []) ++
        if j = move.target.parent then [(Watches.movedTo ||| mark move.directory, move.target.name)]
          else [])
      (Files.reentered env move s) := by
  have hentered : s.Told (fun _ ↦ []) ((s.modifyNode move.source.parent
      (Node.withEntries (·.erase move.source.name))).modifyNode move.target.parent
        (Node.withEntries (·.insert move.target.name move.node))) := by
    refine .of_eq rfl rfl fun node hnode ↦ ?_
    rw [named_modifyNode (links_withEntries _), named_modifyNode (links_withEntries _)]
    exact hnode
  have hsource := hsound.tree.valid_names _ _ _ hmove.source_entry
  unfold Files.reentered
  generalize (s.modifyNode move.source.parent (Node.withEntries (·.erase move.source.name))).modifyNode
    move.target.parent (Node.withEntries (·.insert move.target.name move.node)) = entered at hentered ⊢
  have hcookie : entered.Told (fun _ ↦ []) (Files.nextCookie entered) := .of_eq rfl rfl fun _ h ↦ h
  dsimp only
  refine hentered.after_quiet
    (hcookie.after_quiet (.trans (.reportEntry env _ _ hsource (naming_movedFrom _))
    (.reportEntry env _ _ hmove.target_valid (naming_movedTo _)) ?_) ?_) ?_
  · intro node h
    rwa [named_reportEntry]
  · intro node h
    rw [named_reportEntry, named_reportEntry]
    exact h
  · intro node h
    rw [named_reportEntry, named_reportEntry]
    exact h

/-- What a move replaced may go before the move is over. -/
theorem Told.renamed (hwatched : s.Watched) {move : Files.Move} (hmove : move.Sound s) : s.Told (fun j ↦
        (if j = move.source.parent then
          [(Watches.movedFrom ||| mark move.directory, move.source.name)] else []) ++
        if j = move.target.parent then [(Watches.movedTo ||| mark move.directory, move.target.name)]
          else [])
      (Files.renamed env move s) := by
  have hreentered : s.Told _ (Files.reentered env move s) := .reentered hsound hmove
  have hnames : Watcher.Names (Files.reentered env move s).nodes :=
    (hsound.names.withEntries_erase _ _).withEntries_insert _ hmove.target_valid.2.1 _
  have hreplaced : (Files.reentered env move s).Told (fun _ ↦ [])
      (Files.reentered env move s |> Files.replaced env move.target.node) ∧
        ∀ node, (Files.reentered env move s |> Files.replaced env move.target.node).Named node →
          (Files.reentered env move s).Named node := by
    cases move.target.node with
    | none => exact ⟨.of_eq rfl rfl fun _ h ↦ h, fun _ h ↦ h⟩
    | some j =>
      exact ⟨.unlinked env j true hnames (hwatched.of_told hreentered).sound, fun _ ↦ named_of_unlinked⟩
  have hnamed : ∀ node, (Files.renamed env move s).Named node ↔
      (Files.reentered env move s |> Files.replaced env move.target.node).Named node := by
    intro node
    rw [Files.renamed, named_modifyNode (links_touched _), named_modifyNode (links_touched _),
      named_modifyNode (links_moved _ _)]
  refine hreentered.before_quiet
    (hreplaced.1.before_quiet (.of_eq rfl rfl fun node h ↦ (hnamed node).mpr h) ?_) ?_
  · exact fun node hnot h ↦ hnot ((hnamed node).mp h)
  · exact fun node hnot h ↦ hnot (hreplaced.2 node ((hnamed node).mp h))

theorem Told.linked {linking : Files.Linking} (hfree : linking.place.Free s) : s.Told (fun dir ↦
        if dir = linking.place.parent then [(Watches.create, linking.place.name)] else [])
      (Files.linked env linking s) := by
  have hreport : Heard (fun _ ↦ False) (fun _ ↦ []) s (s.report env linking.node Watches.attributes) :=
    .report env _ hsound.names plain_attributes
  refine .of_heard (.after_quiet hreport (.after_quiet (.of_eq rfl)
    (.reportEntry env _ 0 hfree.name_valid (naming_create false)))) rfl fun node hnode ↦ ?_
  change ((((s.report env linking.node Watches.attributes).modifyNode _ _).modifyNode linking.node
    (Node.linked env.now)).modifyNode linking.place.parent (Node.touched env.now)).Named node
  rw [named_modifyNode (links_touched _)]
  refine named_modifyNode_of_le (fun _ ↦ Nat.le_succ _) ?_
  rw [named_modifyNode (links_withEntries _)]
  exact hnode

end State

end DotnetPal.Memfs
