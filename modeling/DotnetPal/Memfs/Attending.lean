import DotnetPal.Memfs.Told

/-!
# Watchers along a call

What every call makes of the watchers, whatever it does: a watcher that stays took steps of its
protocol, a watch that ended was removed or lost its node, and what a watch of a directory heard
replays from the listing before the call to the listing after it.
-/

open Std List Option Function

namespace DotnetPal.Memfs

open Programs Relation DirectoryTree DotnetPal.Memfs.Core

attribute [local instance] lexOrd

namespace State

variable {s s' : State} {news : ℕ → News} {env : Env} {call : Call} {reply : Reply}

/-! ## News that replay -/

/-- The news of each directory replay to what it lists in the end. -/
def Replays (s : State) (news : ℕ → News) (s' : State) : Prop :=
  ∀ dir, Listing.replay (news dir) (s.core.listing dir) = s'.core.listing dir

theorem Replays.quiet (h : ∀ dir, s'.core.listing dir = s.core.listing dir) :
    s.Replays (fun _ ↦ []) s' := fun dir ↦ (h dir).symm

/-- One event in one directory. -/
theorem Replays.single {parent : ℕ} {event : UInt32 × Bytes} (h : ∀ dir, s'.core.listing dir =
      if dir = parent then (s.core.listing dir).heard event else s.core.listing dir) :
    s.Replays (fun dir ↦ if dir = parent then [event] else []) s' := by
  intro dir
  rw [h dir]
  by_cases hparent : dir = parent <;> simp [hparent, Listing.replay]

variable (hsound : s.core.Sound none)
include hsound

theorem Replays.created {p : Place} {mode : UInt32} {body : Body}
    (hfree : p.Free s) (hbody : Core.NewBody p.parent body) :
    s.Replays (fun dir ↦
        if dir = p.parent then [(Watches.create ||| mark body.directory?.isSome, p.name)] else [])
      (s.created env p mode body) := by
  refine .single fun dir ↦ ?_
  rw [core_created, listing_attached hsound hfree.parent_directory hbody, Listing.heard_create]

theorem Replays.removed {removal : Files.Removal} {counted dir : Bool}
    (he : s.core.child? removal.place.parent removal.place.name = some removal.node)
    (hempty : (s.core.parent? removal.node).isSome → ∀ name, s.core.child? removal.node name = none) :
    s.Replays (fun j ↦
        if j = removal.place.parent then [(Watches.delete ||| mark dir, removal.place.name)] else [])
      (Files.removed env removal counted (Watches.delete ||| mark dir) s) := by
  refine .single fun j ↦ ?_
  rw [Files.core_removed, listing_detached hsound he hempty, Listing.heard_delete]

omit hsound in
theorem Replays.linked {linking : Files.Linking} (hfree : linking.place.Free s)
    (hplain : s.core.parent? linking.node = none) :
    s.Replays (fun dir ↦
        if dir = linking.place.parent then [(Watches.create, linking.place.name)] else [])
      (Files.linked env linking s) := by
  refine .single fun dir ↦ ?_
  rw [Files.core_linked, listing_linked hfree.parent_directory hplain]
  rw [show Watches.create = Watches.create ||| mark false from rfl, Listing.heard_create]

/-- What a directory lists after a move, whether or not it replaced something. -/
theorem listing_renamed {move : Files.Move} (hmove : move.Sound s) (dir : ℕ) :
    (Files.renamed env move s).core.listing dir =
      if dir = move.target.parent then
        update (if dir = move.source.parent then
            update (s.core.listing dir) move.source.name none
          else s.core.listing dir) move.target.name (some move.directory)
      else if dir = move.source.parent then
        update (s.core.listing dir) move.source.name none
      else s.core.listing dir := by
  cases hnode : move.target.node with
  | none =>
    rw [Files.core_renamed_free env hnode, listing_moved hsound hmove.source_entry hmove.target_directory,
      hmove.directory_eq]
  | some j =>
    have he : s.core.child? move.target.parent move.target.name = some j := by
      rw [← hmove.target_entry, hnode]
    have hempty := (hmove.replaced_kind j hnode).2
    have hsource := hmove.source_ne hnode
    have htarget := hmove.target_ne hnode
    have hmoved := hmove.node_ne hnode
    have hstill : (s.core.detached move.target.parent move.target.name j).child? move.source.parent
        move.source.name = some move.node := by
      rw [child?_detached hsource.symm, if_neg]
      · exact hmove.source_entry
      · rintro ⟨hparents, hnames⟩
        rw [hparents, hnames, hmove.source_entry, some.injEq] at he
        exact hmoved he
    rw [Files.core_renamed_replaced env hnode hsource htarget,
      listing_moved (hsound.step (.detach he hempty)) hstill
        (by rw [parent?_detached htarget.symm]; exact hmove.target_directory),
      parent?_detached hmoved.symm, ← hmove.directory_eq, listing_detached hsound he hempty]
    -- The arrival overwrites what the replaced entry left.
    by_cases hat : dir = move.target.parent
    · funext name
      simp only [if_pos hat]
      by_cases hname : name = move.target.name
      · subst hname
        simp only [update_self]
      · rw [update_of_ne hname, update_of_ne hname]
        split <;> simp only [update_apply, if_neg hname]
    · simp only [if_neg hat]

theorem Replays.renamed {move : Files.Move} (hmove : move.Sound s) : s.Replays (fun j ↦
        (if j = move.source.parent then
          [(Watches.movedFrom ||| mark move.directory, move.source.name)] else []) ++
        if j = move.target.parent then [(Watches.movedTo ||| mark move.directory, move.target.name)]
          else [])
      (Files.renamed env move s) := by
  intro dir
  have hsource : Listing.replay (if dir = move.source.parent then
      [(Watches.movedFrom ||| mark move.directory, move.source.name)] else []) (s.core.listing dir) =
        if dir = move.source.parent then
          update (s.core.listing dir) move.source.name none
        else s.core.listing dir := by
    split
    · exact Listing.heard_movedFrom _ _ _
    · rfl
  rw [listing_renamed hsound hmove, Listing.replay_append, hsource]
  by_cases htarget : dir = move.target.parent
  · rw [if_pos htarget, if_pos htarget]
    exact Listing.heard_movedTo _ _ _
  · rw [if_neg htarget, if_neg htarget]
    rfl

omit hsound

/-! ## Calls that name nothing -/

variable {id : ℕ}

theorem named_iff_shapes : s.Named id ↔ ∃ shape, s.core.shapes[id]? = some shape ∧ 0 < shape.links := by
  rw [get_shapes, get_core, Named]
  constructor
  · rintro ⟨node, hnode, hpos⟩
    exact ⟨node.kept.shape, by rw [hnode]; rfl, hpos⟩
  · rintro ⟨shape, hshape, hpos⟩
    obtain ⟨kept, hkept, rfl⟩ := map_eq_some_iff.mp hshape
    obtain ⟨node, hnode, rfl⟩ := map_eq_some_iff.mp hkept
    exact ⟨node, hnode, hpos⟩

theorem named_reaped (id j : ℕ) : (s.reaped id).Named j ↔ s.Named j := by
  unfold reaped
  cases hnode : s.nodes[id]? with
  | none => exact Iff.rfl
  | some node =>
    dsimp only
    split
    · rename_i hfree
      unfold Named
      simp only [OrderedMap.get_erase]
      by_cases hid : id = j
      · subst hid
        simp [hnode, hfree.1]
      · simp [hid]
    · exact Iff.rfl

/-- The watchers heard of every change of names. -/
def Reported (s s' : State) : Prop := ∃ news, s.Told news s' ∧ s.Replays news s'

/-- What is told of no name, while the shape of the tree stays. -/
theorem Reported.of_shapes (heard : Heard (fun _ ↦ False) (fun _ ↦ []) s s')
    (hbelow : s'.nextWatcher = s.nextWatcher) (hshapes : s'.core.shapes = s.core.shapes) :
    s.Reported s' := by
  refine ⟨fun _ ↦ [], .of_heard heard hbelow fun node hnode ↦ ?_, .quiet (listing_congr_shapes hshapes)⟩
  rw [named_iff_shapes] at hnode ⊢
  rwa [hshapes]

/-- A file that lost a reference may go. -/
theorem Reported.of_reaped (hwatchers : s'.watchers = s.watchers)
    (hbelow : s'.nextWatcher = s.nextWatcher) (hshapes : s'.core.shapes = s.core.shapes)
    (hplain : s.core.parent? id = none) :
    s.Reported (s'.reaped id) := by
  refine ⟨fun _ ↦ [], .of_eq ?_ ?_ fun node hnode ↦ ?_, .quiet fun dir ↦ ?_⟩
  · rw [watchers_reaped, hwatchers]
  · rw [nextWatcher_reaped, hbelow]
  · rw [named_reaped]
    rw [named_iff_shapes] at hnode ⊢
    rwa [hshapes]
  · have hnone : s'.core.parent? id = none := by
      rw [parent?, hshapes]
      exact hplain
    rw [core_reaped, listing_reaped hnone, listing_congr_shapes hshapes]

/-- Something that leaves watchers and the shape of the tree alone comes after. -/
theorem Reported.then_shapes {middle : State} (h : s.Reported middle)
    (hwatchers : s'.watchers = middle.watchers) (hbelow : s'.nextWatcher = middle.nextWatcher)
    (hshapes : s'.core.shapes = middle.core.shapes) : s.Reported s' := by
  obtain ⟨news, htold, hreplays⟩ := h
  have hnamed : ∀ node, s'.Named node ↔ middle.Named node := by
    intro node
    rw [named_iff_shapes, named_iff_shapes, hshapes]
  refine ⟨news, htold.before_quiet (.of_eq hwatchers hbelow fun node ↦ (hnamed node).mpr) ?_, fun dir ↦ ?_⟩
  · exact fun node hnot h ↦ hnot ((hnamed node).mp h)
  · rw [listing_congr_shapes hshapes]
    exact hreplays dir

theorem Reported.changed (env : Env) (hsound : s.core.Sound none) (told : Bool) {old new : Content}
    (hc : s.core.content? id = some old) :
    s.Reported (s.changed env id told old new) := by
  have hnames : Watcher.Names (s.settled id env.now old new).nodes :=
    hsound.names.modify id fun _ _ _ hbody ↦ nomatch hbody
  refine .of_shapes ?_ ?_ ?_
  · exact (Heard.of_eq rfl).after_quiet (.applyIf fun _ ↦ .report env id hnames plain_modify)
  · unfold State.changed applyIf
    split <;> rfl
  · rw [core_changed]
    exact shapes_withContent hc

theorem Reported.of_opening {flags mode : UInt32} {middle : State} (hsound : s.core.Sound none)
    (hopening : Opening env s flags mode id middle) :
    s.Reported middle := by
  cases hopening with
  | found _ _ => exact .of_shapes (.of_eq rfl) rfl rfl
  | truncated hnode hbody _ _ => exact .changed env hsound false (content?_of_node hnode hbody)
  | created hfree => exact ⟨_, .created hsound hfree, .created hsound hfree .file⟩

/-! ## What a call makes of the watchers -/

/-- What a call makes of the watchers. -/
structure Attends (call : Call) (s s' : State) : Prop where
  watched : s'.Watched
  steps : ∀ (key : ℕ) (old new : Watcher), s.watchers[key]? = some old → s'.watchers[key]? = some new →
    ReflTransGen Watcher.Step old new
  /-- A watch ends by the call that removes it or with the last name of its node. -/
  ends : ∀ (key : ℕ) (old new : Watcher) (watch : Watch), s.watchers[key]? = some old →
    s'.watchers[key]? = some new → watch ∈ old.watches.data → ¬new.Live watch.id →
    ¬s'.Named watch.node ∨
      ∃ handle, call = .removeWatch handle watch.id ∧ s.handles[handle]? = some (.watcher key)
  /-- A new watcher has a key that no watcher had. -/
  fresh : ∀ (key : ℕ) (new : Watcher), s'.watchers[key]? = some new →
    s.watchers[key]? = none → s.nextWatcher ≤ key ∧ new.offered = []
  below : s.nextWatcher ≤ s'.nextWatcher
  replays : ∀ (key : ℕ) (old new : Watcher) (id : UInt32) (dir : ℕ), s.watchers[key]? = some old →
    s'.watchers[key]? = some new → new.Follows id dir →
    ∃ noted, new.queue.history = old.queue.history ++ noted ∧
      Listing.replay (newsOf id (noted.map Prod.fst)) (s.core.listing dir) = s'.core.listing dir

theorem Attends.of_reported (hwatched : s.Watched) (h : s.Reported s') : Attends call s s' := by
  obtain ⟨news, htold, hreplays⟩ := h
  have hhears : ∀ (key : ℕ) (old new : Watcher), s.watchers[key]? = some old → s'.watchers[key]? =
    some new →
      old.Hears (fun node ↦ ¬s'.Named node) news new := by
    intro key old new hold hnew
    obtain ⟨before, hbefore, hhears⟩ := htold.heard key new hnew
    rw [hold, some.injEq] at hbefore
    rwa [hbefore]
  constructor
  · exact hwatched.of_told htold
  · exact fun key old new hold hnew ↦ (hhears key old new hold hnew).steps
  · intro key old new watch hold hnew hwatch hover
    refine .inl fun hnamed ↦ hover ⟨watch, ?_, rfl⟩
    exact (hhears key old new hold hnew).keeps watch hwatch (not_not.mpr hnamed)
  · intro key new hnew hnone
    obtain ⟨before, hbefore, _⟩ := htold.heard key new hnew
    rw [hnone] at hbefore
    cases hbefore
  · exact htold.watchers_below.ge
  · intro key old new id dir hold hnew hfollows
    obtain ⟨noted, hnoted, hnews⟩ :=
      (hhears key old new hold hnew).noted (hwatched.sound key old hold) id dir hfollows
    exact ⟨noted, hnoted, by rw [hnews, hreplays]⟩

/-- What a call about a watcher makes of it. -/
structure Tended (call : Call) (s : State) (key : ℕ) (old new : Watcher) : Prop where
  steps : ReflTransGen Watcher.Step old new
  named : ∀ watch ∈ new.watches.data, s.Named watch.node
  ends : ∀ watch ∈ old.watches.data, ¬new.Live watch.id →
    ∃ handle, call = .removeWatch handle watch.id ∧ s.handles[handle]? = some (.watcher key)
  noted : ∃ noted, new.queue.history = old.queue.history ++ noted ∧ ∀ id, newsOf id (noted.map Prod.fst) = []

theorem Tended.refl (hwatched : s.Watched) {key : ℕ} {w : Watcher}
    (hwatcher : s.watchers[key]? = some w) : Tended call s key w w :=
  ⟨.refl, fun watch hwatch ↦ hwatched.live key w watch hwatcher hwatch,
    fun watch hwatch hover ↦ absurd ⟨watch, hwatch, rfl⟩ hover, [], by simp, fun _ ↦ rfl⟩

theorem Attends.of_tended (hwatched : s.Watched) (hnodes : s'.nodes = s.nodes)
    (hbelow : s.nextWatcher ≤ s'.nextWatcher)
    (hkeys : ∀ (key : ℕ) (new : Watcher), s'.watchers[key]? = some new →
      (∃ old, s.watchers[key]? = some old ∧ Tended call s key old new) ∨
        (s.nextWatcher = key ∧ key < s'.nextWatcher ∧ new.Sound ∧ new.offered = [] ∧
          new.watches.data = [])) :
    Attends call s s' := by
  have hshapes : s'.core.shapes = s.core.shapes := by
    simp [core, shapes, hnodes]
  have hnamed : ∀ node, s'.Named node ↔ s.Named node := by
    intro node
    rw [Named, hnodes]
    exact Iff.rfl
  have htended : ∀ (key : ℕ) (old new : Watcher), s.watchers[key]? = some old → s'.watchers[key]? =
    some new →
      Tended call s key old new := by
    intro key old new hold hnew
    rcases hkeys key new hnew with ⟨before, hbefore, htended⟩ | ⟨hkey, _⟩
    · rw [hold, some.injEq] at hbefore
      rwa [hbefore]
    · exact absurd (hwatched.below key old hold) (by omega)
  constructor
  · constructor
    · intro key new hnew
      rcases hkeys key new hnew with ⟨old, hold, htended⟩ | ⟨_, _, hsound, _⟩
      · exact (hwatched.sound key old hold).steps htended.steps
      · exact hsound
    · intro key new watch hnew hwatch
      rw [hnamed]
      rcases hkeys key new hnew with ⟨old, hold, htended⟩ | ⟨_, _, _, _, hempty⟩
      · exact htended.named watch hwatch
      · rw [hempty] at hwatch
        cases hwatch
    · intro key new hnew
      rcases hkeys key new hnew with ⟨old, hold, _⟩ | ⟨_, hlt, _⟩
      · exact Nat.lt_of_lt_of_le (hwatched.below key old hold) hbelow
      · exact hlt
  · exact fun key old new hold hnew ↦ (htended key old new hold hnew).steps
  · exact fun key old new watch hold hnew hwatch hover ↦
      .inr ((htended key old new hold hnew).ends watch hwatch hover)
  · intro key new hnew hnone
    rcases hkeys key new hnew with ⟨old, hold, _⟩ | ⟨hkey, _, _, hoffered, _⟩
    · rw [hnone] at hold
      cases hold
    · exact ⟨hkey.le, hoffered⟩
  · exact hbelow
  · intro key old new id dir hold hnew _
    obtain ⟨noted, hnoted, hnews⟩ := (htended key old new hold hnew).noted
    refine ⟨noted, hnoted, ?_⟩
    rw [hnews, listing_congr_shapes hshapes]
    rfl

/-- One watcher changes. -/
theorem Attends.of_one (hwatched : s.Watched) {key : ℕ} {found changed : Watcher}
    (hx : s.watchers[key]? = some found) (htended : Tended call s key found changed) :
    Attends call s (Watches.addWatcher key changed s) := by
  refine .of_tended hwatched rfl (Nat.le_refl _) fun j new hnew ↦ .inl ?_
  rcases OrderedMap.insert_cases hnew with ⟨rfl, rfl⟩ | ⟨_, hnew⟩
  · exact ⟨found, hx, htended⟩
  · exact ⟨new, hnew, .refl hwatched hnew⟩

end State

/-! ## The watch calls -/

variable {room : Queue → Option ℕ}

namespace Watches

variable {env : Env} {found changed : Watcher} {node : ℕ} {wanted watch : UInt32}

/-- A watch that was there asks for something else, or a new one gets the next id. -/
theorem added_cases (h : added env found node wanted = .ok (watch, changed)) :
    (∃ (i : ℕ) (known : Watch), found.watches.data[i]? = some known ∧ known.node = node ∧ watch = known.id ∧
      changed = { found with
        watches := found.watches.withData (found.watches.data.set i { known with events := wanted }) }) ∨
    (found.last ≠ 0xffffffff ∧ (∀ j ∈ found.watches.data, j.node ≠ node) ∧ watch = found.last + 1 ∧
      ∃ watches : Vec Watch, watches.data = found.watches.data ++ [⟨found.last + 1, node, wanted⟩] ∧
        changed = { found with watches := watches, last := found.last + 1 }) := by
  unfold added at h
  cases hindex : found.watches.data.findIdx? fun watch ↦ watch.node = node with
  | some i =>
    obtain ⟨hlt, hnode, _⟩ := findIdx?_eq_some_iff_getElem.mp hindex
    rw [hindex] at h
    dsimp only at h
    rw [getElem?_eq_getElem hlt] at h
    cases h
    exact .inl ⟨i, _, getElem?_eq_getElem hlt, of_decide_eq_true hnode, rfl, rfl⟩
  | none =>
    rw [hindex] at h
    dsimp only at h
    split at h
    · cases h
    · rename_i hlast
      split at h
      · cases h
      · rename_i reserved hreserved
        cases h
        refine .inr ⟨hlast, ?_, rfl, _, ?_, rfl⟩
        · intro j hj
          simpa using findIdx?_eq_none_iff.mp hindex j hj
        · simp [Vec.tryReserve_data hreserved]

theorem withoutWatch_cases (h : withoutWatch room found watch = .ok changed) :
    ∃ (i : ℕ) (gone : Watch), found.watches.data[i]? = some gone ∧ gone.id = watch ∧ changed = { found with
        watches := found.watches.withData (found.watches.data.eraseIdx i) }.tell room
          [.ending gone.id] := by
  unfold withoutWatch at h
  cases hindex : found.watches.data.findIdx? fun known ↦ known.id = watch with
  | none =>
    rw [hindex] at h
    cases h
  | some i =>
    obtain ⟨hlt, hid, _⟩ := findIdx?_eq_some_iff_getElem.mp hindex
    rw [hindex] at h
    cases h
    have hwatch := of_decide_eq_true hid
    exact ⟨i, _, getElem?_eq_getElem hlt, hwatch, by rw [hwatch]; rfl⟩

end Watches

namespace State

variable {s s' : State} {env : Env} {call : Call} {reply : Reply} {key : ℕ} {found changed : Watcher}

theorem Tended.added (hwatched : s.Watched) (hx : s.watchers[key]? = some found) {node : ℕ}
    {wanted watch : UInt32} (hnamed : s.Named node)
    (h : Watches.added env found node wanted = .ok (watch, changed)) :
    Tended call s key found changed := by
  rcases Watches.added_cases h with ⟨i, known, hknown, _, _, rfl⟩ | ⟨hlast, hnew, _, watches, hdata, rfl⟩
  · have hnodes := Watcher.map_set_known wanted Watch.node rfl hknown
    have hids := Watcher.map_set_known wanted Watch.id rfl hknown
    refine ⟨.single (.rewatch hknown), fun watch hwatch ↦ ?_, fun watch hwatch hover ↦ absurd ?_ hover,
      [], by simp, fun _ ↦ rfl⟩
    · have hmem : watch.node ∈ found.watches.data.map Watch.node := by
        rw [← hnodes]
        exact mem_map_of_mem hwatch
      obtain ⟨old, hold, hsame⟩ := mem_map.mp hmem
      rw [← hsame]
      exact hwatched.live key found old hx hold
    · have hmem : watch.id ∈ (found.watches.data.set i { known with events := wanted }).map Watch.id := by
        rw [hids]
        exact mem_map_of_mem hwatch
      exact mem_map.mp hmem
  · refine ⟨.single (.watch hlast hnew hdata), fun watch hwatch ↦ ?_,
      fun watch hwatch hover ↦ absurd ?_ hover, [], by simp, fun _ ↦ rfl⟩
    · dsimp only at hwatch
      rw [hdata] at hwatch
      rcases mem_append.mp hwatch with hwatch | hwatch
      · exact hwatched.live key found watch hx hwatch
      · rw [mem_singleton.mp hwatch]
        exact hnamed
    · exact ⟨watch, by rw [hdata]; exact mem_append_left _ hwatch, rfl⟩

theorem Tended.without (hwatched : s.Watched) (hx : s.watchers[key]? = some found) {handle : ℕ}
    {watch : UInt32} (hhandle : s.handles[handle]? = some (.watcher key))
    (h : Watches.withoutWatch room found watch = .ok changed) :
    Tended (.removeWatch handle watch) s key found changed := by
  obtain ⟨i, gone, hgone, rfl, rfl⟩ := Watches.withoutWatch_cases h
  refine ⟨.single (.finish hgone), fun j hj ↦ ?_, fun j hj hover ↦ ⟨handle, ?_, hhandle⟩, ?_⟩
  · exact hwatched.live key found j hx (mem_of_mem_eraseIdx hj)
  · -- Every other watch is still there.
    by_contra hne
    obtain ⟨p, hp⟩ := mem_iff_getElem?.mp hj
    refine hover ⟨j, mem_eraseIdx_iff_getElem?.mpr ⟨p, ?_, hp⟩, rfl⟩
    rintro rfl
    rw [hgone, some.injEq] at hp
    exact hne (by rw [hp])
  · obtain ⟨noted, hnoted, htell⟩ := Watcher.tell_history { found with
      watches := found.watches.withData (found.watches.data.eraseIdx i) } room [.ending gone.id]
    refine ⟨noted, htell, fun id ↦ ?_⟩
    rw [hnoted]
    simp [newsOf, Offer.news, Offer.ending]

theorem Tended.popped (hwatched : s.Watched) (hx : s.watchers[key]? = some found) {fresh : Option ℕ}
    {event : Option Offer} {queue : Queue} (h : found.queue.pop fresh = .ok (event, queue)) :
    Tended call s key found { found with queue := queue } :=
  ⟨.single (.pop h), fun watch hwatch ↦ hwatched.live key found watch hx hwatch,
    fun watch hwatch hover ↦ absurd ⟨watch, hwatch, rfl⟩ hover, [], by
      simp [Queue.history_pop h], fun _ ↦ rfl⟩

/-- What has a name, as a path finds it, is named. -/
theorem named_of_entry (hsound : s.core.Sound none) {node : ℕ}
    (h : node = root ∨ ∃ dir name, s.core.child? dir name = some node) : s.Named node := by
  rw [named_iff_shapes]
  rcases h with rfl | ⟨dir, name, he⟩
  · have hparent := hsound.tree.root_parent
    cases hshape : s.core.shapes[root]? with
    | none => simp [parentOf, hshape] at hparent
    | some shape =>
      refine ⟨shape, rfl, ?_⟩
      rw [hsound.tree.links_exact root shape hshape, if_pos rfl]
      exact Nat.succ_pos _
  · exact hsound.links_pos he

theorem shapes_withMaps (core : Core) (id : ℕ) (change : ℕ → ℕ) :
    (core.modifyNode id (Kept.withMaps change)).shapes = core.shapes :=
  shapes_modifyNode_same fun _ _ ↦ rfl

/-- Every call attends to the watchers. -/
theorem Attends.of_deed (hsound : s.core.Sound none) (hwatched : s.Watched)
    (hdeed : Deed env s call reply s') : Attends call s s' := by
  cases hdeed with
  | quiet _ => exact .of_reported hwatched (.of_shapes (.of_eq rfl) rfl rfl)
  | openFile hopening =>
    refine .of_reported hwatched ((Reported.of_opening hsound hopening).then_shapes rfl rfl ?_)
    rw [core_addHandle]
    change (State.modifyNode _ _ _).core.shapes = _
    rw [core_modifyNode fun node ↦ Node.kept_opened node]
    exact shapes_modifyNode_same fun _ _ ↦ rfl
  | @close file id access hhandle =>
    have hfile := hsound.life.handle_file file id (by rw [get_core_handles, hhandle]; rfl)
    obtain ⟨c, hc⟩ := isSome_iff_exists.mp hfile
    refine .of_reported hwatched (.of_reaped rfl rfl ?_ (parent?_of_content? hc))
    rw [core_modifyNode fun node ↦ Node.kept_closed node _, core_dropHandle]
    exact shapes_modifyNode_same fun _ _ ↦ rfl
  | readAt _ _ =>
    refine .of_reported hwatched
      (.of_shapes (.applyIf fun _ ↦ .report env _ hsound.names plain_access) ?_ ?_)
    · unfold applyIf
      split <;> rfl
    · rw [core_applyIf (core_report _ _ _)]
  | writeAt _ hnode hbody _ =>
    exact .of_reported hwatched (.changed env hsound _ (content?_of_node hnode hbody))
  | setSize _ hnode hbody _ =>
    exact .of_reported hwatched (.changed env hsound _ (content?_of_node hnode hbody))
  | remove _ he hempty hkinds =>
    subst hkinds
    exact .of_reported hwatched ⟨_, .removed hsound hwatched _ _ he, .removed hsound he hempty⟩
  | rename hmove => exact .of_reported hwatched ⟨_, .renamed hsound hwatched hmove, .renamed hsound hmove⟩
  | create _ hfree hnew _ =>
    exact .of_reported hwatched ⟨_, .created hsound hfree, .created hsound hfree hnew⟩
  | link hfree _ hplain => exact .of_reported hwatched ⟨_, .linked hsound hfree, .linked hfree hplain⟩
  | openDirectory | readDirectory | closeDirectory =>
    exact .of_reported hwatched (.of_shapes (.of_eq rfl) rfl rfl)
  | @attributes _ id _ _ hsame =>
    have hnames := hsound.names.modify_same id fun node ↦ congrArg Kept.body (hsame node).1
    refine .of_reported hwatched
      (.of_shapes (.after_quiet (.of_eq rfl) (.report env _ hnames plain_attributes)) rfl ?_)
    rw [core_report, core_modifyNode_same fun node ↦ (hsame node).1]
  | work _ => exact .of_reported hwatched (.of_shapes (.of_eq rfl) rfl rfl)
  | locks _ _ _ =>
    refine .of_reported hwatched (.of_shapes (.of_eq rfl) rfl ?_)
    rw [core_modifyNode_same fun node ↦ Node.kept_withLocks node _]
  | openWatcher hqueue =>
    refine .of_tended hwatched rfl (Nat.le_succ _) fun key new hnew ↦ ?_
    rcases OrderedMap.insert_cases hnew with ⟨rfl, rfl⟩ | ⟨_, hnew⟩
    · refine .inr ⟨rfl, Nat.lt_succ_self _, .new hqueue, ?_, rfl⟩
      rw [Watcher.offered, (Queue.new_holds hqueue).2]
      rfl
    · exact .inl ⟨new, hnew, .refl hwatched hnew⟩
  | closeWatcher _ =>
    refine .of_tended hwatched rfl (Nat.le_refl _) fun key new hnew ↦ .inl ?_
    simp only [dropHandle, Watches.dropWatcher] at hnew
    obtain ⟨_, hnew⟩ := OrderedMap.get_of_erase hnew
    exact ⟨new, hnew, .refl hwatched hnew⟩
  | addWatch _ _ hnode hx hadded =>
    exact .of_one hwatched hx (.added hwatched hx (named_of_entry hsound hnode) hadded)
  | removeWatch hhandle hx hwithout => exact .of_one hwatched hx (.without hwatched hx hhandle hwithout)
  | look _ hx hpop => exact .of_one hwatched hx (.popped hwatched hx hpop)
  | mapShared _ hc _ _ _ _ _ _ =>
    refine .of_reported hwatched (.of_shapes (.of_eq rfl) rfl ?_)
    rw [Mappings.core_mapShared, mappedShared, shapes_withMaps]
    exact shapes_withContent hc
  | mapPrivate _ _ _ _ _ => exact .of_reported hwatched (.of_shapes (.of_eq rfl) rfl rfl)
  | unmapShared hmapping =>
    obtain ⟨c, hc⟩ := isSome_iff_exists.mp (hsound.life.mapping_file _ _ _ hmapping).2
    refine .of_reported hwatched (.of_reaped ?_ ?_ ?_ (parent?_of_content? hc))
    · split <;> rfl
    · split <;> rfl
    · rw [Mappings.core_lessen, shapes_withMaps, lessened]
      split <;> rfl
  | unmapPrivate | setCapacity => exact .of_reported hwatched (.of_shapes (.of_eq rfl) rfl rfl)
  | storeShared _ _ hc _ _ =>
    refine .of_reported hwatched (.of_shapes (.of_eq rfl) rfl ?_)
    rw [core_modifyNode fun node ↦ Node.kept_withContent node _]
    exact shapes_withContent hc
  | storePrivate _ => exact .of_reported hwatched (.of_shapes (.of_eq rfl) rfl rfl)

end State

end DotnetPal.Memfs
