import DotnetPal.Memfs.Watchers

/-!
# Calls are steps of the core

What a deed does to the core is a sequence of steps of the core: most deeds take one, a rename that
replaces detaches first, and an open that creates or truncates does so before it counts its handle.
-/

open Std

namespace DotnetPal.Memfs

open Programs Hierarchy DirectoryTree Relation State

attribute [local instance] lexOrd

/-! ## Beside a node that goes -/

namespace Core

variable {core : Core} {id other : ℕ}

theorem get_reaped_of_ne (h : id ≠ other) : (core.reaped id).nodes[other]? = core.nodes[other]? := by
  unfold reaped
  split
  · rfl
  · split
    · simp [h]
    · rfl

theorem parent?_congr {next : Core} (h : next.nodes[other]? = core.nodes[other]?) :
    next.parent? other = core.parent? other := by
  simp only [parent?, parentOf, get_shapes, h]

theorem child?_congr {next : Core} (h : next.nodes[other]? = core.nodes[other]?) (name : Bytes) :
    next.child? other name = core.child? other name := by
  simp only [child?, entryOf, get_shapes, h]

variable {parent : ℕ} {name : Bytes}

theorem parent?_detached (h : id ≠ other) :
    (core.detached parent name id).parent? other = core.parent? other := by
  have hunnamed : (core.unnamed parent name id).parent? other = core.parent? other := by
    rw [parent?, shapes_unnamed, parentOf_unnamed]
    rfl
  rw [← hunnamed]
  exact parent?_congr (get_reaped_of_ne h)

theorem child?_detached {wanted : Bytes} (h : id ≠ other) :
    (core.detached parent name id).child? other wanted =
      if parent = other ∧ name = wanted then none else core.child? other wanted := by
  have hunnamed : (core.unnamed parent name id).child? other wanted =
      if parent = other ∧ name = wanted then none else core.child? other wanted := by
    rw [child?, shapes_unnamed, entryOf_unnamed]
    rfl
  rw [← hunnamed]
  exact child?_congr (get_reaped_of_ne h) wanted

/-- A climb does not pass through what holds nothing. -/
theorem Avoids.detached {moved : ℕ} (sound : core.Sound none)
    (hempty : (core.parent? id).isSome → ∀ wanted, core.child? id wanted = none) {element : ℕ}
    (h : Avoids core.parent? root moved element) (hne : id ≠ element) :
    Avoids (core.detached parent name id).parent? root moved element := by
  induction h with
  | root => exact .root
  | @step lower above hroot hmoved hparent _ ih =>
    obtain ⟨own, hown⟩ := sound.tree.has_name lower above hparent hroot (by simp)
    refine .step hroot hmoved ((parent?_detached hne).trans hparent) (ih ?_)
    rintro rfl
    have hnone : core.child? id own = none := hempty (isSome_parentOf_of_entryOf hown) own
    rw [show core.child? id own = some lower from hown] at hnone
    cases hnone

theorem content?_edited {old new c : Content} (h : core.content? id = some c) :
    (core.edited id old new).content? id = some new := by
  obtain ⟨kept, hkept, _⟩ := content?_eq_some_iff.mp h
  refine content?_eq_some_iff.mpr ⟨kept.withContent new, ?_, rfl⟩
  simp [edited, modifyNode, hkept]

theorem content?_attached {c : Content} :
    (core.attached parent name (.file c)).content? core.nextId = some c := by
  refine content?_eq_some_iff.mpr ⟨⟨1, 0, 0, .file c⟩, ?_, rfl⟩
  simp [attached]

end Core

/-! ## Deeds in the core -/

variable {s s' : State} {env : Env} {call : Call} {reply : Reply}

theorem State.get_core_handles (addr : ℕ) : s.core.handles[addr]? = s.handles[addr]?.map Handle.node? := by
  simp [core]

/-- A handle that stays no file handle changes nothing in the core. -/
theorem State.core_addHandle_same {addr : ℕ} {old new : Handle} (hold : s.handles[addr]? = some old)
    (hsame : new.node? = old.node?) : (s.addHandle addr new).core = s.core := by
  rw [core_addHandle, Core.withHandle, OrderedMap.insert_eq_self]
  rw [get_core_handles, hold, hsame]
  rfl

theorem Opening.core_steps {flags mode granted : UInt32} {id : ℕ} {middle : State}
    (hopening : Opening env s flags mode id middle) (honest : env.Honest s) :
    ReflTransGen Core.Step s.core
      ((middle.modifyNode id Node.opened).addHandle env.box (.file id granted)).core := by
  have hopened : ((middle.modifyNode id Node.opened).addHandle env.box (.file id granted)).core =
      middle.core.opened env.box id := by
    rw [core_addHandle, core_modifyNode fun node ↦ Node.kept_opened node]
    rfl
  have hfresh : s.core.handles[env.box]? = none := by
    rw [get_core_handles, honest.box_fresh]
    rfl
  rw [hopened]
  cases hopening with
  | found hc _ => exact .single (.openFile hfresh hc)
  | truncated hnode hbody _ hedited =>
    have hkept : s.core.nodes[id]? = some _ := (get_core id).trans (by rw [hnode]; rfl)
    have hc := content?_of_node hnode hbody
    rw [core_changed]
    exact (ReflTransGen.single (.edit hkept hbody hedited)).tail
      (.openFile hfresh (Core.content?_edited hc))
  | created hfree =>
    rw [core_created]
    exact (ReflTransGen.single
      (.attach hfree.parent_directory hfree.entry_free hfree.name_valid .file)).tail
      (.openFile hfresh Core.content?_attached)

theorem Files.Move.Sound.core_steps {move : Files.Move} (hs : s.core.Sound none) (hmove : move.Sound s) :
    ReflTransGen Core.Step s.core (Files.renamed env move s).core := by
  have havoids : (s.core.parent? move.node).isSome →
    Avoids s.core.parent? root move.node move.target.parent := by
    intro hsome
    exact hmove.avoids (hmove.directory_eq.trans hsome)
  cases hnode : move.target.node with
  | none =>
    rw [Files.core_renamed_free env hnode]
    refine .single (.move hmove.source_entry hmove.target_directory ?_ hmove.target_valid havoids)
    rw [← hmove.target_entry, hnode]
  | some other =>
    have he : s.core.child? move.target.parent move.target.name = some other := by
      rw [← hmove.target_entry, hnode]
    have hempty := (hmove.replaced_kind other hnode).2
    have hsource := (hmove.source_ne hnode).symm
    have htarget := (hmove.target_ne hnode).symm
    have hmoved := (hmove.node_ne hnode).symm
    rw [Files.core_renamed_replaced env hnode hsource.symm htarget.symm]
    refine (ReflTransGen.single (.detach he hempty)).tail (.move ?_ ?_ ?_ hmove.target_valid ?_)
    · rw [Core.child?_detached hsource, if_neg]
      · exact hmove.source_entry
      · rintro ⟨hparents, hnames⟩
        rw [hparents, hnames, hmove.source_entry, Option.some.injEq] at he
        exact hmoved he.symm
    · rw [Core.parent?_detached htarget]
      exact hmove.target_directory
    · rw [Core.child?_detached htarget, if_pos ⟨rfl, rfl⟩]
    · rw [Core.parent?_detached hmoved]
      intro hsome
      exact Core.Avoids.detached hs hempty (havoids hsome) htarget

theorem Mappings.length_copyOf (c : Content) (offset length : ℕ) :
    (Mappings.copyOf c offset length).length = nextMultipleOfPage length := by
  have hread : (c.read offset length).length ≤ length := by
    unfold Content.read
    split
    · simp only [List.length_take]
      omega
    · simp
  have hle := le_nextMultipleOfPage length
  simp only [Mappings.copyOf, List.length_append, List.length_replicate]
  omega

theorem Mappings.core_mapShared (key : ℕ × ℕ) (id n : ℕ) (pages : Pinned) :
    ((Mappings.Record.put key (.shared id (n + 1))
      (s.modifyNode id (Node.withContent (.pinned pages)))).modifyNode id Node.mapped).core =
        s.core.mappedShared key id n pages := by
  rw [core_modifyNode fun node ↦ Node.kept_mapped node]
  change ((s.modifyNode id (Node.withContent (.pinned pages))).core.withMapping _ _).modifyNode _ _ = _
  rw [core_modifyNode fun node ↦ Node.kept_withContent node _]
  rfl

theorem Mappings.core_lessen (key : ℕ × ℕ) (id n : ℕ) : (((if n - 1 = 0 then Mappings.Record.drop key
      else Mappings.Record.put key (.shared id (n - 1))) s).modifyNode id Node.unmapped).core =
        (s.core.lessened key id n).modifyNode id (Kept.withMaps (· - 1)) := by
  rw [core_modifyNode fun node ↦ Node.kept_unmapped node]
  unfold Core.lessened
  split <;> rfl

/-- Every deed is a sequence of steps of the core. -/
theorem Deed.core_steps (hs : s.core.Sound none) (honest : env.Honest s)
    (hdeed : Deed env s call reply s') : ReflTransGen Core.Step s.core s'.core := by
  have hfresh : s.core.handles[env.box]? = none := by
    rw [get_core_handles, honest.box_fresh]
    rfl
  have hedit : ∀ {id : ℕ} {node : Node} {c new : Content} {bytes : Bytes} (told : Bool),
      s.nodes[id]? = some node → node.body = .file c →
      Content.Edited c (s.capacity - s.used) (node.maps ≠ 0) bytes new →
      ReflTransGen Core.Step s.core (s.changed env id told c new).core := by
    intro id node c new bytes told hnode hbody hedited
    have hkept : s.core.nodes[id]? = some node.kept := (get_core id).trans (by rw [hnode]; rfl)
    rw [core_changed]
    exact .single (.edit hkept hbody hedited)
  cases hdeed with
  | quiet _ => exact .refl
  | openFile hopening => exact hopening.core_steps honest
  | close hhandle =>
    rw [core_reaped, core_modifyNode fun node ↦ Node.kept_closed node _, core_dropHandle]
    exact .single (.close ((get_core_handles _).trans (by rw [hhandle]; rfl)))
  | readAt _ _ =>
    rw [core_applyIf (core_report _ _ _)]
  | writeAt _ hnode hbody hedited => exact hedit _ hnode hbody hedited
  | setSize _ hnode hbody hedited => exact hedit _ hnode hbody hedited
  | remove _ he hempty _ =>
    rw [Files.core_removed]
    exact .single (.detach he hempty)
  | rename hmove => exact hmove.core_steps hs
  | create _ hfree hnew _ =>
    rw [core_created]
    exact .single (.attach hfree.parent_directory hfree.entry_free hfree.name_valid hnew)
  | link hfree hmem hplain =>
    obtain ⟨node, hnode⟩ := mem_nodes_iff.mp hmem
    rw [Files.core_linked]
    exact .single (.link hfree.parent_directory hfree.entry_free hfree.name_valid
      ((get_core _).trans (by rw [hnode]; rfl)) hplain)
  | openDirectory =>
    rw [core_addHandle]
    exact .single (.box hfresh)
  | readDirectory hhandle _ =>
    rw [core_addHandle_same hhandle (by rfl)]
  | closeDirectory hhandle =>
    rw [core_dropHandle]
    exact .single (.unbox ((get_core_handles _).trans (by rw [hhandle]; rfl)))
  | attributes _ hsame =>
    rw [core_report, core_modifyNode_same fun node ↦ (hsame node).1]
  | work hdir => exact .single (.work hdir)
  | locks _ _ _ =>
    rw [core_modifyNode_same fun node ↦ Node.kept_withLocks node _]
  | openWatcher _ =>
    rw [core_addHandle]
    exact .single (.box hfresh)
  | closeWatcher hhandle =>
    change ReflTransGen Core.Step s.core (s.dropHandle _).core
    rw [core_dropHandle]
    exact .single (.unbox ((get_core_handles _).trans (by rw [hhandle]; rfl)))
  | addWatch | removeWatch | look => exact .refl
  | @mapShared file offset length access id granted c n pages _ hc hlen _ hpinned hvalid hinside
      hn =>
    rw [Mappings.core_mapShared]
    refine .single (.mapShared hc ?_ hvalid hlen hinside hn)
    rcases hpinned with hsame | ⟨hplain, hbase, hcapacity, hsize, hbytes⟩
    · exact .inl hsame
    · refine .inr ⟨hplain, hsize, hbytes, fun owner block hblock ↦ ?_⟩
      rw [Mappings.block_core] at hblock
      rw [hcapacity]
      exact honest.pages_apart _ _ hbase owner block hblock
  | mapPrivate _ _ hlen _ hbase =>
    refine .single (.mapPrivate hlen (Mappings.length_copyOf _ _ _) fun owner block hblock ↦ ?_)
    rw [Mappings.block_core] at hblock
    exact honest.pages_apart _ _ hbase owner block hblock
  | unmapShared hmapping =>
    rw [core_reaped, Mappings.core_lessen]
    exact .single (.unmapShared hmapping)
  | unmapPrivate hmapping => exact .single (.unmapPrivate hmapping)
  | setCapacity => exact .single .setCapacity
  | storeShared _ _ hc hbase hend =>
    rw [core_modifyNode fun node ↦ Node.kept_withContent node _]
    exact .single (.storeShared hc (Nat.le_trans hbase (Nat.le_add_right _ _)) hend)
  | storePrivate hmapping => exact .single (.storePrivate hmapping)

theorem Core.Sound.steps {core next : Core} (hs : core.Sound none)
    (hsteps : ReflTransGen Core.Step core next) :
    next.Sound none := by
  induction hsteps with
  | refl => exact hs
  | tail _ hstep ih => exact ih.step hstep

/-- What a deed leaves is sound. -/
theorem Deed.core_sound (hs : s.core.Sound none) (honest : env.Honest s)
    (hdeed : Deed env s call reply s') : s'.core.Sound none :=
  hs.steps (hdeed.core_steps hs honest)

end DotnetPal.Memfs
