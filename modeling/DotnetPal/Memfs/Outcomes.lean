import DotnetPal.Memfs.Deeds

/-!
# The calls do their deeds

In a state the calls can rely on, each of them refuses and leaves everything as it was, or returns
with its deed done. None panics and no loop runs on. The one exception to the first half is a
refused lock on a whole file, which has given up the lock its handle held.
-/

open Std Option

namespace DotnetPal.Memfs

open Programs Hierarchy State

attribute [local instance] lexOrd

variable {s : State} {env : Env}

/-! ## Handles -/

variable {c : Content} {node : Node} {granted : UInt32}

namespace State

variable {addr id : ℕ} {access : UInt32}

theorem borrow_yields (h : s.Trusts addr) : (s.borrow addr).Yields (s.handles[addr]? = some ·) := by
  unfold borrow
  split
  · exact .refused
  · rename_i hv
    rcases h with h | h | h
    · exact absurd (.inl h) hv
    · exact absurd (.inr h) hv
    · obtain ⟨x, hx⟩ := isSome_iff_exists.mp h
      rw [hx]
      exact .ok rfl

theorem fileNode_yields (h : s.Trusts addr) (access : UInt32) :
    (s.fileNode addr access).Yields fun id ↦ ∃ granted, s.handles[addr]? = some (.file id granted) := by
  refine (borrow_yields h).bind fun x hx ↦ ?_
  cases x with
  | file node granted =>
    dsimp only
    split
    · exact .ok ⟨granted, hx⟩
    · exact .refused
  | directory | watcher => exact .refused

theorem watcherId_yields (h : s.Trusts addr) :
    (s.watcherId addr).Yields fun id ↦ s.handles[addr]? = some (.watcher id) := by
  refine (borrow_yields h).bind fun x hx ↦ ?_
  cases x with
  | watcher key => exact .ok hx
  | file | directory => exact .refused

/-- A file handle is on a file that is there. -/
theorem exists_content (hs : s.core.Sound none) (h : s.handles[addr]? = some (.file id granted)) :
    ∃ node c, s.nodes[id]? = some node ∧ node.body = .file c := by
  have hhandle : s.core.handles[addr]? = some (some id) := by
    simp [core, h, Handle.node?]
  obtain ⟨c, hc⟩ := isSome_iff_exists.mp (hs.life.handle_file addr id hhandle)
  obtain ⟨kept, hkept, hbody⟩ := Core.content?_eq_some_iff.mp hc
  obtain ⟨node, hnode, rfl⟩ := exists_node_of_core hkept
  exact ⟨node, c, hnode, hbody⟩

theorem content?_of_node (hnode : s.nodes[id]? = some node)
    (hbody : node.body = .file c) : s.core.content? id = some c := by
  rw [content?_core, hnode, bind_some, hbody]
  rfl

theorem exists_node_of_content? (h : s.core.content? id = some c) :
    ∃ node, s.nodes[id]? = some node ∧ node.body = .file c := by
  obtain ⟨kept, hkept, hbody⟩ := Core.content?_eq_some_iff.mp h
  obtain ⟨node, hnode, rfl⟩ := exists_node_of_core hkept
  exact ⟨node, hnode, hbody⟩

end State

variable {file : ℕ}

theorem Files.fileHandle_yields (h : s.Trusts file) :
    (Files.fileHandle s file).Yields fun id ↦ ∃ granted, s.handles[file]? = some (.file id granted) := by
  refine (borrow_yields h).bind fun x hx ↦ ?_
  cases x with
  | file node granted => exact .ok ⟨granted, hx⟩
  | watcher | directory => exact .refused

variable {dir : ℕ}

theorem Files.directoryHandle_yields (h : s.Trusts dir) : (Files.directoryHandle s dir).Yields fun x ↦
      s.handles[dir]? = some (.directory x.1 x.2) := by
  refine (borrow_yields h).bind fun x hx ↦ ?_
  cases x with
  | directory listing next => exact .ok hx
  | file | watcher => exact .refused

/-! ## Opening and closing -/

/-- The judgement of every call but a lock on a whole file. -/
abbrev Does (env : Env) (s : State) (call : Call) (program : Op Reply) : Prop :=
  Atomic Fault.Refusal program s (Deed env s call)

variable {id : ℕ} {place : Place}

namespace Files

/-- What is no link and no directory is a file. -/
theorem exists_content_of_place (hlive : s.nodes[id]? = some node)
    (hlink : s.linkTarget (some id) = none) (hparent : false = (s.core.parent? id).isSome) :
    ∃ c, node.body = .file c := by
  rw [parent?_core, hlive] at hparent
  cases hbody : node.body with
  | file c => exact ⟨c, rfl⟩
  | directory parent entries => simp [hbody, Body.directory?] at hparent
  | link target => simp [linkTarget, hlive, hbody] at hlink

variable (hready : s.Ready)
include hready

theorem truncated_cases (flags mode : UInt32)
    (hnode : s.nodes[id]? = some node) (hbody : node.body = .file c) :
    Atomic Fault.Refusal (truncated env id flags) s fun x middle ↦
      x = id ∧ Opening env s flags mode id middle := by
  unfold truncated
  by_cases hflag : flags &&& Files.truncate ≠ 0
  · rw [if_pos hflag]
    refine .bind_returns ((change_atomic env false hready.sound hnode hbody fun room mapped ↦
      Content.resize_atomic env.content 0 room mapped).imp ?_)
    rintro _ _ ⟨new, rfl, hedited⟩
    exact .pure ⟨rfl, .truncated hnode hbody hflag hedited⟩
  · rw [if_neg hflag]
    exact .of_ok rfl ⟨rfl, .found (content?_of_node hnode hbody) (by simpa using hflag)⟩

theorem openNode_cases (flags mode : UInt32)
    (hp : place.Sound s (if flags &&& Files.exclusive ≠ 0 then .create else .follow)) :
    Atomic Fault.Refusal (openNode env place flags mode) s (Opening env s flags mode) := by
  unfold openNode
  cases hnode : place.node with
  | some id =>
    refine .bind_refuseIf (Fault.refusal_error _) fun hexclusive ↦ ?_
    rw [if_neg hexclusive] at hp
    refine .bind_reading (isDirectory_yields id) fun dir ⟨node, hlive, hparent⟩ ↦ ?_
    refine .bind_refuseIf (Fault.refusal_error _) fun hfile ↦ ?_
    have hlink := hp.followed rfl
    rw [hnode] at hlink
    rw [Bool.not_eq_true] at hfile
    obtain ⟨c, hbody⟩ := exists_content_of_place hlive hlink (hfile ▸ hparent)
    refine (truncated_cases hready flags mode hlive hbody).imp ?_
    rintro x middle ⟨rfl, hopening⟩
    exact hopening
  | none =>
    refine .bind_refuseIf (Fault.refusal_error _) fun _ ↦ ?_
    refine .bind_refuseIf (Fault.refusal_error _) fun _ ↦ ?_
    have hfree := hp.free hnode
    have hbelow : place.parent ≠ s.nextId := Nat.ne_of_lt (hready.sound.parent_below hfree.parent_directory)
    exact .of_ok (create_eq env mode _ hfree.parent_directory hbelow) (.created hfree)

omit hready in
theorem mem_of_opening {flags mode : UInt32} {middle : State}
    (h : Opening env s flags mode id middle) : id ∈ middle.nodes := by
  cases h with
  | found hc _ =>
    obtain ⟨node, hnode, _⟩ := exists_node_of_content? hc
    exact mem_nodes_iff.mpr ⟨node, hnode⟩
  | truncated hnode hbody _ _ =>
    simp only [changed, nodes_applyIf_report, settled, mem_modifyNode]
    exact mem_nodes_iff.mpr ⟨_, hnode⟩
  | created hfree =>
    simp only [created, nodes_reportEntry, added, mem_modifyNode]
    exact ExtTreeMap.mem_insert_self

theorem openFile_does (path : Bytes) (flags mode : UInt32) :
    Does env s (.openFile path flags mode) (Reply.handle <$> openFile env path flags mode) := by
  refine .map (.bind_reading (walk_yields _ _) fun place hp ↦ .bind_returns ?_)
  refine (openNode_cases hready flags mode (hp hready.sound)).imp ?_
  intro id middle hopening
  exact ⟨_, _, bind_of_ok (updateNode_eq _ (mem_of_opening hopening)), .openFile hopening⟩

theorem close_does (htrust : s.Trusts file) :
    Does env s (.close file) ((fun _ ↦ Reply.done) <$> close file) := by
  refine .map (.bind_reading (fileHandle_yields htrust) fun id ⟨granted, hhandle⟩ ↦ ?_)
  obtain ⟨node, c, hnode, _⟩ := exists_content hready.sound hhandle
  have hlive : id ∈ (s.dropHandle file).nodes := mem_nodes_iff.mpr ⟨node, hnode⟩
  have haccounted : ((s.dropHandle file).modifyNode id (Node.closed file)).core.Accounted :=
    accounted_modifyNode (fun _ ↦ rfl) hready.sound.accounted
  have hrun : (modify (dropHandle file) >>= fun _ ↦ updateNode id (Node.closed file) >>= fun _ ↦ reap id)
      s = .ok () (((s.dropHandle file).modifyNode id (Node.closed file)).reaped id) := by
    rw [bind_of_ok (modify_apply _ _), bind_of_ok (updateNode_eq _ hlive), reap_eq _ haccounted]
  exact .of_ok hrun (.close hhandle)

/-! ## Transfers -/

omit hready in
theorem readAt_does (htrust : s.Trusts file) (off cap : ℕ) :
    Does env s (.readAt file off cap) (Reply.bytes <$> readAt env file off cap) := by
  refine .map (.bind_reading (fileNode_yields htrust _) fun id ⟨granted, hhandle⟩ ↦ ?_)
  refine .bind_reading (content_yields id) fun c hc ↦ ?_
  exact .of_ok (bind_of_ok (modify_apply _ _)) (.readAt hhandle hc)

theorem writeAt_does (htrust : s.Trusts file) (off : ℕ) (data : Bytes) :
    Does env s (.writeAt file off data) (Reply.count <$> writeAt env file off data) := by
  refine .map (.bind_reading (fileNode_yields htrust _) fun id ⟨granted, hhandle⟩ ↦ ?_)
  obtain ⟨node, c, hnode, hbody⟩ := exists_content hready.sound hhandle
  refine (change_atomic env (data ≠ []) hready.sound hnode hbody fun room mapped ↦
    Content.write_atomic env.content off data room mapped).imp ?_
  rintro _ _ ⟨new, rfl, rfl, hedited⟩
  exact .writeAt hhandle hnode hbody hedited

theorem setSize_does (htrust : s.Trusts file) (size : ℕ) :
    Does env s (.setSize file size) ((fun _ ↦ Reply.done) <$> setSize env file size) := by
  refine .map (.bind_reading (fileNode_yields htrust _) fun id ⟨granted, hhandle⟩ ↦ ?_)
  obtain ⟨node, c, hnode, hbody⟩ := exists_content hready.sound hhandle
  refine (change_atomic env false hready.sound hnode hbody fun room mapped ↦
    Content.resize_atomic env.content size room mapped).imp ?_
  rintro _ _ ⟨new, rfl, hedited⟩
  exact .setSize hhandle hnode hbody hedited

omit hready

theorem flush_does (htrust : s.Trusts file) :
    Does env s (.flush file) ((fun _ ↦ Reply.done) <$> flush file) :=
  .map (.bind_reading (fileNode_yields htrust _) fun _ _ ↦ .of_ok rfl (.quiet trivial))

/-- A call that only looks answers what it sees. -/
theorem reading_does {α : Type} {call : Call} {look : State → Result α} {reply : α → Reply} {x : α → Prop}
    (hlook : (look s).Yields x) (hhas : ∀ seen, look s = .ok seen → call.Has s (reply seen) .looks) :
    Does env s call (reply <$> reading look) :=
  .map (.reading (hlook.with_eq.imp fun seen hseen ↦ .quiet (hhas seen hseen.1)))

theorem status_yields (id : ℕ) : (s.status id).Yields fun _ ↦ True :=
  (node_yields id).bind fun _ _ ↦ .ok trivial

theorem resolve_yields (path : Bytes) (follow : Bool) : (resolve path follow s).Yields fun _ ↦ True :=
  (walk_yields _ _).bind fun _ _ ↦ (Result.required_yields _ _).imp fun _ _ ↦ trivial

/-! ## Removing -/

/-- A place with a name that holds a node is the entry of that name. -/
theorem entry_of_place {last : Last} (hp : place.Sound s last) (hnode : place.node = some id)
    (hname : place.name ≠ []) :
    s.core.child? place.parent place.name = some id := by
  rcases hp.entry with ⟨hempty, _⟩ | ⟨_, he⟩
  · exact absurd hempty hname
  · rw [← he, hnode]

theorem mem_of_child? (hs : s.core.Sound none) {name : Bytes}
    (h : s.core.child? dir name = some id) : id ∈ s.nodes := by
  obtain ⟨shape, hshape⟩ := hs.tree.entry_live _ _ _ h
  rw [Core.get_shapes, get_core] at hshape
  obtain ⟨kept, hkept, _⟩ := map_eq_some_iff.mp hshape
  obtain ⟨node, hnode, _⟩ := map_eq_some_iff.mp hkept
  exact mem_nodes_iff.mpr ⟨node, hnode⟩

variable (hready : s.Ready)
include hready

theorem commitRemoval_does {call : Call} {counted : Bool}
    (hhas : call.Has s .done (.removes counted)) {kinds : UInt32} {removal : Removal}
    (he : s.core.child? removal.place.parent removal.place.name = some removal.node)
    (hempty : (s.core.parent? removal.node).isSome → ∀ name, s.core.child? removal.node name = none)
    (hkinds : kinds = Watches.delete ||| mark (s.core.parent? removal.node).isSome) :
    Atomic Fault.Refusal (commitRemoval env removal counted kinds) s fun _ s' ↦ Deed env s call .done s' :=
  .of_ok (commitRemoval_eq env counted kinds (DirectoryTree.isSome_parentOf_of_entryOf he)
    (mem_of_child? hready.sound he) hready.sound.accounted) (.remove hhas he hempty hkinds)

/-- A removal is of an entry that names no directory. -/
theorem removal_yields (path : Bytes) : (removal path s).Yields fun x ↦
    s.core.child? x.place.parent x.place.name = some x.node ∧ s.core.parent? x.node = none := by
  refine (walk_yields path .entry).bind fun place hwalk ↦ ?_
  refine (Result.required_yields _ _).bind fun node hnode ↦ ?_
  refine (isDirectory_yields node).bind fun dir ⟨_, _, hparent⟩ ↦ ?_
  have hp := hwalk hready.sound
  split
  · exact .refused
  · rename_i hfile
    have hnone : s.core.parent? node = none := by
      rw [← not_isSome_iff_eq_none, ← hparent]
      exact hfile
    have hname : place.name ≠ [] := by
      intro hempty
      rcases hp.entry with ⟨_, hself⟩ | ⟨hvalid, _⟩
      · rw [hnode, some.injEq] at hself
        have hdir := hp.parent_directory
        rw [← hself, hnone] at hdir
        cases hdir
      · exact hvalid.1 hempty
    exact .ok ⟨entry_of_place hp hnode hname, hnone⟩

theorem remove_does (path : Bytes) :
    Does env s (.remove path) ((fun _ ↦ Reply.done) <$> remove env path) := by
  refine .map (.bind_reading (removal_yields hready path) fun x ⟨he, hnone⟩ ↦ ?_)
  refine commitRemoval_does hready (by rfl) he ?_ ?_
  · intro hsome
    rw [hnone] at hsome
    cases hsome
  · rw [hnone]
    rfl

/-- A removal of a directory is of an entry that names an empty one. -/
theorem directoryRemoval_yields (path : Bytes) : (directoryRemoval path s).Yields fun x ↦
    s.core.child? x.place.parent x.place.name = some x.node ∧
      (s.core.parent? x.node).isSome ∧ ∀ name, s.core.child? x.node name = none := by
  refine (walk_yields path .entry).bind fun place hp ↦ ?_
  refine (Result.required_yields _ _).bind fun node hnode ↦ ?_
  refine (entries_yields node).bind fun entries ⟨hparent, hentries⟩ ↦ ?_
  split
  · exact .refused
  split
  · exact .refused
  split
  · exact .refused
  rename_i hroot hnot hname
  refine .ok ⟨entry_of_place (hp hready.sound) hnode (by simpa using hname), hparent, fun j ↦ ?_⟩
  have hempty : entries = ∅ := ExtTreeMap.isEmpty_iff.mp (by simpa using hnot)
  simp [hentries, hempty]

theorem removeDirectory_does (path : Bytes) :
    Does env s (.removeDirectory path) ((fun _ ↦ Reply.done) <$> removeDirectory env path) := by
  refine .map (.bind_reading (directoryRemoval_yields hready path) fun x ⟨he, hsome, hempty⟩ ↦ ?_)
  refine commitRemoval_does hready (by rfl) he (fun _ ↦ hempty) ?_
  rw [hsome]
  rfl

/-! ## Renaming -/

theorem refuseLoop_yields (node : ℕ) (dir : Bool) {target : Place}
    (h : (s.core.parent? target.parent).isSome) :
    (refuseLoop s node dir target).Yields fun _ ↦
      dir = true → Avoids s.core.parent? root node target.parent := by
  obtain ⟨n, hn, hlt⟩ := exists_climb hready.sound h
  unfold refuseLoop
  split
  · rcases refuseInside_cases hn hlt with ⟨hok, havoids⟩ | hrefused
    · exact hok ▸ .ok fun _ ↦ havoids
    · exact hrefused ▸ .refused
  · split
    · exact .refused
    · rename_i hfile _
      exact .ok fun hdir ↦ absurd hdir hfile

omit hready in
/-- What a move may replace: a directory only if it is empty. -/
theorem refuseReplaced_yields (dir : Bool) (replaced : Option ℕ) :
    (refuseReplaced s dir replaced).Yields fun _ ↦ ∀ j, replaced = some j →
      (s.core.parent? j).isSome = dir ∧
        ((s.core.parent? j).isSome → ∀ name, s.core.child? j name = none) := by
  cases replaced with
  | none => exact .ok (by simp)
  | some j =>
    refine (isDirectory_yields j).bind fun x ⟨_, _, hparent⟩ ↦ ?_
    cases dir <;> cases x
    · exact .ok (by rintro _ ⟨⟩; simp [← hparent])
    · exact .refused
    · exact .refused
    · refine (entries_yields j).bind fun entries ⟨_, hentries⟩ ↦ ?_
      split
      · rename_i hempty
        refine .ok ?_
        rintro _ ⟨⟩
        exact ⟨hparent.symm, fun _ name ↦ by simp [hentries, ExtTreeMap.isEmpty_iff.mp hempty]⟩
      · exact .refused

theorem plannedMove_yields (source target : Bytes) :
    (plannedMove source target s).Yields fun plan ↦ ∀ move, plan = some move → move.Sound s := by
  refine (walk_yields source .entry).bind fun old hold ↦ ?_
  refine (Result.required_yields _ _).bind fun node hnode ↦ ?_
  refine (walk_yields target .entry).bind fun new hnew ↦ ?_
  have htarget := hnew hready.sound
  split
  · exact .refused
  rename_i hnames
  split
  · exact .ok (by simp)
  rename_i hj
  refine (isDirectory_yields node).bind fun dir ⟨_, _, hparent⟩ ↦ ?_
  refine (refuseLoop_yields hready node dir htarget.parent_directory).bind fun _ havoids ↦ ?_
  refine (refuseReplaced_yields dir new.node).bind fun _ hreplaced ↦ .ok ?_
  simp only [List.isEmpty_iff, not_or] at hnames
  obtain ⟨hvalid, he⟩ : ValidName new.name ∧ new.node = s.core.child? new.parent new.name := by
    rcases htarget.entry with ⟨hempty, _⟩ | he
    · exact absurd hempty hnames.2
    · exact he
  rintro _ ⟨⟩
  exact {
    source_entry := entry_of_place (hold hready.sound) hnode hnames.1
    target_directory := htarget.parent_directory
    target_entry := he
    target_valid := hvalid
    other_node := hj
    directory_eq := hparent
    avoids := havoids
    replaced_kind := hreplaced }

theorem rename_does (source target : Bytes) :
    Does env s (.rename source target) ((fun _ ↦ Reply.done) <$> rename env source target) := by
  refine .map (.bind_reading (plannedMove_yields hready source target).with_eq fun plan ⟨hlook, hplan⟩ ↦ ?_)
  cases plan with
  | none => exact .of_ok rfl (.quiet hlook)
  | some move =>
    have hmove := hplan move rfl
    exact .of_ok (commitMove_eq env hready.sound hmove) (.rename hmove)

/-! ## Creating -/

theorem create_does {call : Call} {mode : UInt32} {body : Body}
    (hhas : call.Has s .done (.creates place.parent mode body)) (hfree : place.Free s)
    (hnew : Core.NewBody place.parent body) (hbody : body.content? = none) :
    Atomic Fault.Refusal (create env place mode body >>= fun _ ↦ pure ()) s fun _ s' ↦
      Deed env s call .done s' := by
  have hbelow : place.parent ≠ s.nextId := Nat.ne_of_lt (hready.sound.parent_below hfree.parent_directory)
  exact .of_ok (bind_of_ok (create_eq env mode body hfree.parent_directory hbelow))
    (.create hhas hfree hnew hbody)

theorem newDirectory_yields (path : Bytes) : (newDirectory path s).Yields (Place.Free s) := by
  refine (walk_yields path .create).bind fun place hp ↦ ?_
  split
  · exact .refused
  · rename_i hnode
    exact .ok ((hp hready.sound).free (by simpa using hnode))

theorem createDirectory_does (path : Bytes) (mode : UInt32) :
    Does env s (.createDirectory path mode) ((fun _ ↦ Reply.done) <$> createDirectory env path mode) :=
  .map (.bind_reading (newDirectory_yields hready path) fun _ hp ↦
    create_does hready ⟨rfl, rfl⟩ hp .directory rfl)

theorem symlink_does (target created : Bytes) :
    Does env s (.symlink target created) ((fun _ ↦ Reply.done) <$> symlink env target created) := by
  refine .map (.bind_refuseIf (Fault.refusal_error _) fun _ ↦ .bind_refuseIf (Fault.refusal_error _) fun _ ↦
    .bind_refuseIf (Fault.refusal_error _) fun _ ↦
      .bind_reading (vacant_yields hready.sound created) fun place hp ↦ ?_)
  exact create_does hready ⟨rfl, rfl⟩ hp (.link target) rfl

/-- A new name is free, and what gets it is there and no directory. -/
theorem linking_yields (existing created : Bytes) : (linking existing created s).Yields fun x ↦
      x.place.Free s ∧ x.node ∈ s.nodes ∧ s.core.parent? x.node = none := by
  refine (walk_yields _ _).bind fun _ _ ↦ (Result.required_yields _ _).bind fun node _ ↦ ?_
  refine (vacant_yields hready.sound created).bind fun place hfree ↦ ?_
  refine (isDirectory_yields node).bind fun dir ⟨data, hlive, hparent⟩ ↦ ?_
  split
  · exact .refused
  · rename_i hfile
    refine .ok ⟨hfree, mem_nodes_iff.mpr ⟨data, hlive⟩, ?_⟩
    rw [← not_isSome_iff_eq_none, ← hparent]
    exact hfile

theorem link_does (existing created : Bytes) :
    Does env s (.link existing created) ((fun _ ↦ Reply.done) <$> link env existing created) :=
  .map (.bind_reading (linking_yields hready existing created) fun _ ⟨hfree, hmem, hnone⟩ ↦
    .of_ok (commitLinking_eq env hfree.parent_directory hmem) (.link hfree hmem hnone))

omit hready

/-! ## Directory handles -/

theorem snapshot_yields (path : Bytes) : (snapshot env path s).Yields fun _ ↦ True := by
  refine (walk_yields _ _).bind fun _ _ ↦ (Result.required_yields _ _).bind fun node _ ↦ ?_
  refine (entries_yields node).bind fun entries _ ↦ ?_
  split
  · exact .foldlM (fun _ (e : Bytes × ℕ) _ ↦ (kind_yields e.2).bind fun _ _ ↦ .ok trivial) _ trivial
  · exact .refused

theorem openDirectory_does (path : Bytes) :
    Does env s (.openDirectory path) (Reply.handle <$> openDirectory env path) :=
  .map (.bind_reading (snapshot_yields path) fun _ _ ↦
    .of_ok (bind_of_ok (modify_apply _ _)) .openDirectory)

/-- The cursor stays in its listing. -/
theorem entryAt_yields {listing : Bytes} {next : ℕ} (hnext : next ≤ listing.length) (cap : ℕ) :
    (entryAt listing next cap).Yields fun x ↦ next + 2 + x.1.length ≤ listing.length := by
  unfold entryAt
  rw [if_neg (Nat.not_lt.mpr hnext)]
  split
  · rename_i kind len rest hdrop
    split
    · exact .refused
    split
    · exact .refused
    refine .ok ?_
    have hlen := congrArg List.length hdrop
    simp only [List.length_drop, List.length_cons, List.length_take] at hlen ⊢
    omega
  · exact .refused

theorem readDirectory_does (hready : s.Ready) (htrust : s.Trusts dir) (cap : ℕ) :
    Does env s (.readDirectory dir cap) ((fun e ↦ Reply.entry e.1 e.2) <$> readDirectory dir cap) := by
  refine .map (.bind_reading (directoryHandle_yields htrust) fun (listing, next) hhandle ↦ ?_)
  refine .bind_reading (entryAt_yields (hready.cursors _ _ _ hhandle) cap) fun e he ↦ ?_
  exact .of_ok (bind_of_ok (modify_apply _ _)) (.readDirectory hhandle he)

theorem closeDirectory_does (htrust : s.Trusts dir) :
    Does env s (.closeDirectory dir) ((fun _ ↦ Reply.done) <$> closeDirectory dir) :=
  .map (.bind_reading (directoryHandle_yields htrust) fun _ hhandle ↦
    .of_ok (modify_apply _ _) (.closeDirectory hhandle))

/-! ## Paths, modes and times -/

theorem currentDirectory_yields (hready : s.Ready) (cap : ℕ) :
    (currentDirectory cap s).Yields fun _ ↦ True :=
  workingDirectory_yields.bind fun _ hworking ↦
    spell_yields hready.sound _ _ (hworking hready.sound)

theorem realPath_yields (hready : s.Ready) (path : Bytes) (cap : ℕ) :
    (realPath path cap s).Yields fun _ ↦ True :=
  (walk_yields _ _).bind fun _ hp ↦ (Result.required_yields _ _).bind fun _ _ ↦
    spell_yields hready.sound _ _ (hp hready.sound).parent_directory

theorem readLink_yields (path : Bytes) (cap : ℕ) : (readLink path cap s).Yields fun _ ↦ True := by
  refine (resolve_yields path false).bind fun id _ ↦ (node_yields id).bind fun node _ ↦ ?_
  split
  · exact .ok trivial
  · exact .refused

theorem updateNode_does {call : Call} (hhas : call.Has s .done .sets) {change : Node → Node}
    (hsame : ∀ node, (change node).kept = node.kept ∧ (change node).locks = node.locks) :
    Atomic Fault.Refusal (updateNode id change >>= fun _ ↦ modify (report env id Watches.attributes)) s
      fun _ s' ↦ Deed env s call .done s' := by
  refine .bind_returns (.bind_reading (node_yields id) fun node hnode ↦ ?_)
  exact .of_ok (modify_apply _ _) (.modify (.attributes hhas hsame))

theorem setNodeMode_does {call : Call} (hhas : call.Has s .done .sets) (id : ℕ) (mode : UInt32) :
    Atomic Fault.Refusal (setNodeMode env id mode) s fun _ s' ↦ Deed env s call .done s' :=
  updateNode_does hhas fun _ ↦ ⟨rfl, rfl⟩

theorem setNodeTimes_does {call : Call} (hhas : call.Has s .done .sets)
    (id : ℕ) {accessed modified : Option ℕ}
    (hnone : accessed.isNone ∧ modified.isNone → call.Has s .done .looks) :
    Atomic Fault.Refusal (setNodeTimes env id accessed modified) s fun _ s' ↦ Deed env s call .done s' := by
  refine .bind_reading (node_yields id) fun _ _ ↦ ?_
  split
  · exact .of_ok rfl (.quiet (hnone ‹_›))
  · exact updateNode_does hhas fun _ ↦ ⟨rfl, rfl⟩

theorem setCurrentDirectory_does (path : Bytes) :
    Does env s (.setCurrentDirectory path) ((fun _ ↦ Reply.done) <$> setCurrentDirectory path) := by
  have hyields : (resolveDirectory path s).Yields fun id ↦ (s.core.parent? id).isSome :=
    (resolve_yields path true).bind fun _ _ ↦ (entries_yields _).bind fun _ hentries ↦ .ok hentries.1
  exact .map (.bind_reading hyields fun _ hdir ↦ .of_ok (modify_apply _ _) (.work hdir))

/-! ## Locks -/

theorem relock_cases (grant : Option ℕ) (mode : Files.LockMode) (wanted : Lock)
    (hnode : s.nodes[id]? = some node) :
    (relock id grant mode wanted s = .error Error.wouldBlock s ∧ mode ≠ .unlock ∧
      Blocked wanted node.locks.data) ∨
      ¬(mode ≠ .unlock ∧ Blocked wanted node.locks.data) ∧
        (relock id grant mode wanted s = .error Error.outOfMemory s ∨
          ∃ locks :
            Vec Lock, relock id grant mode wanted s = .ok () (s.modifyNode id (Node.withLocks locks)) ∧
            locks.data.Perm
              (carved wanted node.locks.data ++ if mode = .unlock then [] else [wanted])) := by
  have hread : reading (fun j : State ↦ j.node id) s = .ok node s :=
    reading_of_ok (node_eq_ok_iff.mpr hnode)
  unfold relock
  rw [bind_of_ok hread]
  rcases relocked_cases grant mode wanted node.locks with ⟨h, hblocked⟩ | ⟨hfree, h | ⟨locks, h, hperm⟩⟩
  · exact .inl ⟨bind_of_error (reading_of_error h), hblocked⟩
  · exact .inr ⟨hfree, .inl (bind_of_error (reading_of_error h))⟩
  · exact .inr ⟨hfree, .inr ⟨locks, bind_of_ok (reading_of_ok h), hperm⟩⟩

/-- Where only the outcome matters: a refusal, or a step of the owner. -/
theorem relock_steps (grant : Option ℕ) (mode : Files.LockMode) {wanted : Lock}
    (hproper : wanted.Proper) (hnode : s.nodes[id]? = some node) :
    (∃ error : Error, relock id grant mode wanted s = .error error s) ∨
      ∃ locks : Vec Lock, relock id grant mode wanted s = .ok () (s.modifyNode id (Node.withLocks locks)) ∧
        LockStep wanted.owner node.locks.data locks.data ∧
        locks.data.Perm (carved wanted node.locks.data ++ if mode = .unlock then [] else [wanted]) := by
  rcases relock_cases grant mode wanted hnode with ⟨h, _⟩ | ⟨hfree, h | ⟨locks, h, hperm⟩⟩
  · exact .inl ⟨_, h⟩
  · exact .inl ⟨_, h⟩
  · exact .inr ⟨locks, h, .of_relocked hproper hfree hperm, hperm⟩

theorem wholeLock_proper (file : ℕ) (mode : Files.LockMode) : (wholeLock file mode).Proper :=
  ⟨(by decide : 0 < wholeEnd), fun _ ↦ ⟨rfl, rfl⟩⟩

theorem lockRange_does (hready : s.Ready) (htrust : s.Trusts file) (off len : ℕ) (mode : Files.LockMode) :
    Does env s (.lockRange file off len mode)
    ((fun _ ↦ Reply.done) <$> lockRange env file off len mode) := by
  refine .map (.bind_reading (fileNode_yields htrust _) fun id ⟨granted, hhandle⟩ ↦ ?_)
  refine .bind_refuseIf (Fault.refusal_error _) fun hrange ↦ ?_
  obtain ⟨node, c, hnode, _⟩ := exists_content hready.sound hhandle
  have hproper : Lock.Proper ⟨file, false, off, off + len, mode = .exclusive⟩ :=
    ⟨by simp only; omega, fun hwhole ↦ (nomatch hwhole)⟩
  rcases relock_steps env.lock mode hproper hnode with ⟨error, h⟩ | ⟨locks, h, hstep, _⟩
  · exact .refused h
  · refine .of_ok h (.locks rfl hhandle fun j hj ↦ ?_)
    rw [hnode, some.injEq] at hj
    subst hj
    exact .single hstep

/-- A lock on a whole file is the one call that may fail after a change: its handle has then given up
the lock it held, and nothing else is different. -/
theorem lock_cases (env : Env) (hready : s.Ready) (htrust : s.Trusts file) (mode : Files.LockMode)
    (wait : Bool) :
    Atomic Fault.Refusal (lock env file mode wait)
      s (fun done s' ↦ Deed env s (.lock file mode wait) (.locked done) s') ∨
      ∃ (error : Error) (id : ℕ) (granted : UInt32) (node : Node) (locks : Vec Lock),
        s.handles[file]? = some (.file id granted) ∧ s.nodes[id]? = some node ∧
        lock env file mode wait s = .error error (s.modifyNode id (Node.withLocks locks)) ∧
        locks.data.Perm (carved (wholeLock file mode) node.locks.data) := by
  cases hid : s.fileNode file 0 with
  | error fault =>
    obtain ⟨error, rfl⟩ := (fileNode_yields htrust 0).of_error hid
    exact .inl (.refused (bind_of_error (reading_of_error hid)))
  | ok id =>
    obtain ⟨granted, hhandle⟩ := (fileNode_yields htrust 0).of_ok hid
    obtain ⟨node, c, hnode, _⟩ := exists_content hready.sound hhandle
    have hread : reading (fun j : State ↦ j.fileNode file 0) s = .ok id s := reading_of_ok hid
    have hproper := wholeLock_proper file mode
    rcases relock_steps env.unlock .unlock hproper hnode with ⟨error, h⟩ | ⟨given, h, hgave, hgiven⟩
    · exact .inl (.refused ((bind_of_ok hread).trans (bind_of_error h)))
    rw [if_pos rfl, List.append_nil] at hgiven
    -- The table without the lock of the handle is what the second change starts from.
    have hrun : lock env file mode wait s =
        attempt env id mode wait (wholeLock file mode) (s.modifyNode id (Node.withLocks given)) :=
      (bind_of_ok hread).trans (bind_of_ok h)
    have hmiddle : (s.modifyNode id (Node.withLocks given)).nodes[id]? = some (node.withLocks given) := by
      simp [modifyNode, hnode]
    have hdeed : ∀ (locks : Vec Lock) (done : Bool),
      Relation.ReflTransGen (LockStep file) node.locks.data locks.data →
        Deed env s (.lock file mode wait) (.locked done) (s.modifyNode id (Node.withLocks locks)) := by
      intro locks done hlocks
      refine .locks rfl hhandle fun j hj ↦ ?_
      rw [hnode, some.injEq] at hj
      subst hj
      exact hlocks
    rcases relock_steps env.lock mode hproper hmiddle with ⟨error, h⟩ | ⟨taken, h, htook, _⟩
    · by_cases hwait : (error : Fault) = .error .wouldBlock ∧ wait = true
      · refine .inl (.of_ok ?_ (hdeed given false (.single hgave)))
        rw [hrun]
        simp only [attempt, h]
        rw [if_pos hwait]
      · refine .inr ⟨error, id, granted, node, given, hhandle, hnode, ?_, hgiven⟩
        rw [hrun]
        simp only [attempt, h]
        rw [if_neg hwait]
    · refine .inl (.of_ok ?_ (hdeed taken true (.tail (.single hgave) htook)))
      rw [hrun]
      simp only [attempt, h]
      simp only [modifyNode, OrderedMap.modify_modify]
      rfl

end Files

/-! ## Watchers -/

namespace Watches

theorem openWatcher_does : Does env s .openWatcher (Reply.handle <$> openWatcher env) := by
  have hyields : (Queue.new env.queue).Yields (Queue.new env.queue = .ok ·) := by
    unfold Queue.new
    split
    · exact .ok rfl
    · exact .refused
  refine .map (.bind_reading hyields fun queue hqueue ↦ .bind_ok rfl ?_)
  have hrun : (modify countWatcher >>= fun _ ↦ modify (addWatcher s.nextWatcher ⟨queue, Vec.empty, 0⟩) >>=
      fun _ ↦ handle env (.watcher s.nextWatcher)) s = .ok env.box
        ((addWatcher s.nextWatcher ⟨queue, Vec.empty, 0⟩ (countWatcher s)).addHandle env.box
          (.watcher s.nextWatcher)) := rfl
  exact .of_ok hrun (.openWatcher hqueue)

variable {w : ℕ}

theorem closeWatcher_does (htrust : s.Trusts w) :
    Does env s (.closeWatcher w) ((fun _ ↦ Reply.done) <$> closeWatcher w) :=
  .map (.bind_reading (watcherId_yields htrust) fun _ hid ↦
    .of_ok (bind_of_ok (modify_apply _ _)) (.closeWatcher hid))

theorem added_yields (x : Watcher) (node : ℕ) (wanted : UInt32) :
    (added env x node wanted).Yields (added env x node wanted = .ok ·) := by
  unfold added
  split
  · rename_i i hindex
    obtain ⟨hlt, _⟩ := List.findIdx?_eq_some_iff_getElem.mp hindex
    rw [List.getElem?_eq_getElem hlt]
    exact .ok rfl
  · split
    · exact .refused
    · split
      · exact .refused
      · exact .ok rfl

theorem refuseFile_yields (node : ℕ) (events : UInt32) :
    (refuseFile s node events).Yields fun _ ↦ True := by
  unfold refuseFile
  split
  · refine (isDirectory_yields node).bind fun dir _ ↦ ?_
    split
    · exact .ok trivial
    · exact .refused
  · exact .ok trivial

/-- What a walk finds is the root or has a name. -/
theorem named_of_place (hs : s.core.Sound none) {last : Last} {node : ℕ}
    (hp : place.Sound s last) (hnode : place.node = some node) :
    node = root ∨ ∃ dir name, s.core.child? dir name = some node := by
  rcases hp.entry with ⟨_, hself⟩ | ⟨_, he⟩
  · rw [hnode, some.injEq] at hself
    obtain ⟨above, habove⟩ := isSome_iff_exists.mp hp.parent_directory
    by_cases hroot : node = root
    · exact .inl hroot
    · rw [← hself] at habove
      obtain ⟨name, hname⟩ := hs.tree.has_name node above habove hroot (by simp)
      exact .inr ⟨above, name, hname⟩
  · exact .inr ⟨place.parent, place.name, by rw [← he, hnode]⟩

theorem adding_yields (hready : s.Ready) (htrust : s.Trusts w) (path : Bytes)
    (events : UInt32) : (adding env w path events s).Yields fun made ↦
      Deed env s (.addWatch w path events) (.watch made.2.1) (addWatcher made.1 made.2.2 s) := by
  unfold adding
  split
  · exact .refused
  · refine (watcherId_yields htrust).bind fun id hid ↦
      (walk_yields _ _).with_eq.bind fun place ⟨hwalk, hp⟩ ↦ ?_
    refine (Result.required_yields _ _).bind fun node hnode ↦
      (refuseFile_yields node events).bind fun _ _ ↦ ?_
    refine (Result.required_yields _ _).bind fun x hx ↦ (added_yields x node _).bind fun made hadded ↦ ?_
    have hresolve : Files.resolve path (events &&& Watches.noFollow = 0) s = .ok node := by
      refine except_bind_eq_ok_iff.mpr ⟨place, ?_, Result.required_eq_ok_iff.mpr hnode⟩
      simpa only [decide_eq_true_eq, ite_not] using hwalk
    exact .ok (.addWatch hid hresolve (named_of_place hready.sound (hp hready.sound) hnode) hx hadded)

theorem add_does (hready : s.Ready) (htrust : s.Trusts w) (path : Bytes) (events : UInt32) :
    Does env s (.addWatch w path events) (Reply.watch <$> add env w path events) :=
  .map (.bind_reading (adding_yields hready htrust path events) fun _ hdeed ↦
    .of_ok (bind_of_ok (modify_apply _ _)) hdeed)

theorem withoutWatch_yields (room : Queue → Option ℕ) (x : Watcher) (watch : UInt32) :
    (withoutWatch room x watch).Yields (withoutWatch room x watch = .ok ·) := by
  unfold withoutWatch
  split
  · exact .refused
  · exact .ok rfl

theorem remove_does (htrust : s.Trusts w) (watch : UInt32) :
    Does env s (.removeWatch w watch) ((fun _ ↦ Reply.done) <$> remove env w watch) := by
  have hyields : (removing env w watch s).Yields fun made ↦
      Deed env s (.removeWatch w watch) .done (addWatcher made.1 made.2 s) :=
    (watcherId_yields htrust).bind fun _ hid ↦ (Result.required_yields _ _).bind fun _ hx ↦
      (withoutWatch_yields _ _ _).bind fun _ hchanged ↦ .ok (.removeWatch hid hx hchanged)
  exact .map (.bind_reading hyields fun _ hdeed ↦ .of_ok (modify_apply _ _) hdeed)

theorem pop_yields {queue : Queue} {records : List Offer} (h : queue.Holds records) (fresh : Option ℕ) :
    (queue.pop fresh).Yields (queue.pop fresh = .ok ·) := by
  cases records with
  | nil => exact h.pop_nil fresh ▸ .ok rfl
  | cons offer rest =>
    obtain ⟨s', hpop, _⟩ := h.pop fresh
    exact hpop ▸ .ok rfl

theorem look_does (hready : s.Ready) (htrust : s.Trusts w) :
    Does env s (.look w) (Reply.event <$> look env w) := by
  have hyields : (popped env w s).Yields fun made ↦
      Deed env s (.look w) (.event made.1) (addWatcher made.2.1 made.2.2 s) := by
    refine (watcherId_yields htrust).bind fun _ hid ↦ (Result.required_yields _ _).bind fun x hx ↦ ?_
    obtain ⟨records, hrecords⟩ := hready.framed _ _ hx
    exact (pop_yields hrecords _).bind fun _ hpop ↦ .ok (.look hid hx hpop)
  exact .map (.bind_reading hyields fun _ hdeed ↦ .of_ok (bind_of_ok (modify_apply _ _)) hdeed)

end Watches

/-! ## Mappings -/

namespace Mappings

theorem block_core (owner : Owner) : s.core.block owner = s.block owner := by
  cases owner with
  | node id =>
    simp only [Core.block, block, content?_core, bind_assoc]
    congr 1
    funext node
    cases node.body <;> rfl
  | copy key => rfl

theorem refuseAccess_yields (htrust : s.Trusts file) (access : UInt32) (shared : Bool) :
    (refuseAccess s file access shared).Yields fun _ ↦ True := by
  unfold refuseAccess
  split
  · exact (fileNode_yields htrust _).bind fun _ _ ↦ .ok trivial
  · exact .ok trivial

theorem range_yields (htrust : s.Trusts file) (off len : ℕ) (access : UInt32) (shared : Bool) :
    (range file off len access shared s).Yields fun x ↦
      ∃ granted c, s.handles[file]? = some (.file x.node granted) ∧
        s.core.content? x.node = some c ∧ x.limit = nextMultipleOfPage c.len ∧
        0 < len ∧ off + len ≤ x.limit := by
  refine (fileNode_yields htrust _).bind fun node ⟨granted, hhandle⟩ ↦ ?_
  refine (refuseAccess_yields htrust _ _).bind fun _ _ ↦ ?_
  split
  · exact .refused
  · refine (content_yields node).bind fun c hc ↦ ?_
    dsimp only
    split
    · exact .refused
    · exact .ok ⟨granted, c, hhandle, hc, rfl, by omega, by dsimp only; omega⟩

/-- A range of the pages of a file is not known, or it is known as a range of that file. -/
theorem mapping_in_pages (memory : s.core.Memory) {base cap off len : ℕ}
    (hblock : ∀ owner block, s.core.block owner = some block → owner ≠ .node id → Apart (base, cap) block)
    (hlen : 0 < len) (hinside : off + len ≤ cap) :
    s.mappings[(base + off, len)]? = none ∨
      ∃ n, s.mappings[(base + off, len)]? = some (.shared id n) := by
  cases hx : s.mappings[(base + off, len)]? with
  | none => exact .inl rfl
  | some mapped =>
    cases mapped with
    | shared j n =>
      by_cases hsame : j = id
      · rw [hsame]
        exact .inr ⟨n, rfl⟩
      · obtain ⟨start, size, hj, hle, hend, _⟩ := memory.shared_inside _ _ _ _ hx
        have hapart := hblock _ _ hj (by simpa using hsame)
        unfold Apart at hapart
        omega
    | privateCopy bytes =>
      have hcopy : s.core.block (.copy (base + off, len)) = some (base + off, nextMultipleOfPage len) := by
        simp only [block_core, block, hx]
      have hapart := hblock _ _ hcopy (by simp)
      have hlonger := le_nextMultipleOfPage len
      unfold Apart at hapart
      omega

variable (hready : s.Ready)
include hready

/-- The pages a shared mapping is of: those of the file, or new ones. -/
theorem pinNode_cases (honest : env.Honest s) {x : Range} (hnode : s.nodes[x.node]? = some node)
    (hbody : node.body = .file c)
    (hlimit : x.limit = nextMultipleOfPage c.len) (hpos : 0 < x.limit) :
    (∃ error : Error, pinNode env x s = .error error s) ∨ ∃ b, pinNode env x s =
          .ok b.base (s.modifyNode x.node (Node.withContent (.pinned b))) ∧
        PinnedTo env c b ∧ b.Valid ∧ x.limit ≤ b.capacity ∧
        ∀ owner block, s.core.block owner = some block → owner ≠ .node x.node →
          Apart (b.base, b.capacity) block := by
  have hc := content?_of_node hnode hbody
  have hvalid := hready.sound.memory.content_valid _ _ hc
  have hfits : c.len ≤ x.limit := hlimit ▸ le_nextMultipleOfPage _
  have hdvd : page ∣ x.limit := hlimit ▸ page_dvd_nextMultipleOfPage _
  unfold pinNode
  simp only [hnode, map_some, hbody]
  rcases Content.pin_cases x.limit (env.pages x.limit) hfits hpos hdvd with
    h | ⟨b, rfl, h⟩ | ⟨hplain, b, hbase, h, hcapacity, hpages, hsize, hbytes⟩
  · rw [h]
    exact .inl ⟨.outOfMemory, congrArg _ (modifyNode_withContent_self hnode hbody)⟩
  · have hpages := hvalid.pages_valid b rfl
    refine .inr ⟨b, by rw [h], .inl rfl, hpages, ?_, ?_⟩
    · rw [hlimit]
      exact nextMultipleOfPage_le hpages.size_le hpages.page_dvd
    · intro owner block hblock hne
      refine hready.sound.memory.blocks_apart _ _ _ _ hne.symm ?_ hblock
      simp [Core.block, hc, Content.pages?]
  · refine .inr ⟨b, by rw [h], .inr ⟨hplain, ?_, ?_, hsize, hbytes⟩, hpages, hcapacity.ge, ?_⟩
    · rw [← hlimit]
      exact hbase
    · rw [← hlimit]
      exact hcapacity
    · intro owner block hblock _
      rw [block_core] at hblock
      rw [hcapacity]
      exact honest.pages_apart _ _ hbase owner block hblock

omit hready in
theorem countMapping_eq {key : ℕ × ℕ} {n : ℕ}
    (h : s.mappings[key]? = none ∧ n = 0 ∨ s.mappings[key]? = some (.shared id n)) :
    countMapping id key s = .ok () (Record.put key (.shared id (n + 1)) s) := by
  rcases h with ⟨hnone, rfl⟩ | hshared
  · simp only [countMapping, hnone]
  · simp only [countMapping, hshared]

theorem mapShared_does (honest : env.Honest s) {off len : ℕ} (access : UInt32) {x : Range}
    (hhandle : s.handles[file]? = some (.file x.node granted))
    (hc : s.core.content? x.node = some c)
    (hlimit : x.limit = nextMultipleOfPage c.len) (hlen : 0 < len) (hinside : off + len ≤ x.limit) :
    Atomic Fault.Refusal (mapShared env x off len) s
      fun addr s' ↦ Deed env s (.map file off len access true) (.mapped addr) s' := by
  obtain ⟨node, hnode, hbody⟩ := exists_node_of_content? hc
  rcases pinNode_cases hready honest hnode hbody hlimit (by omega) with
    ⟨error, h⟩ | ⟨b, h, hpinned, hvalid, hcapacity, hapart⟩
  · exact .refused (bind_of_error h)
  have hfits : off + len ≤ b.capacity := Nat.le_trans hinside hcapacity
  have hlive : x.node ∈ s.nodes := mem_nodes_iff.mpr ⟨node, hnode⟩
  obtain ⟨n, hn⟩ : ∃ n, s.mappings[(b.base + off, len)]? = none ∧ n = 0 ∨
      s.mappings[(b.base + off, len)]? = some (.shared x.node n) := by
    rcases mapping_in_pages hready.sound.memory hapart hlen hfits with hnone | ⟨n, hshared⟩
    · exact ⟨0, .inl ⟨hnone, rfl⟩⟩
    · exact ⟨n, .inr hshared⟩
  refine .of_ok ((bind_of_ok h).trans ((bind_of_ok (countMapping_eq ?_)).trans ((bind_of_ok
    (updateNode_eq _ (by simpa [Record.put] using hlive))).trans rfl)))
    (.mapShared hhandle hc hlen (hlimit ▸ hinside) hpinned hvalid hfits hn)
  exact hn

omit hready in
theorem mapPrivate_does {off len : ℕ} (access : UInt32) {x : Range}
    (hhandle : s.handles[file]? = some (.file x.node granted))
    (hc : s.core.content? x.node = some c)
    (hlimit : x.limit = nextMultipleOfPage c.len) (hlen : 0 < len) (hinside : off + len ≤ x.limit) :
    Atomic Fault.Refusal (mapPrivate env x.node off len) s
      fun addr s' ↦ Deed env s (.map file off len access false) (.mapped addr) s' := by
  have hyields : (newPages env len).Yields (env.pages (nextMultipleOfPage len) = some ·) := by
    unfold newPages
    split
    · exact .refused
    · exact Result.required_yields _ _
  refine .bind_ok (reading_of_ok (content_eq_ok_iff.mpr hc)) (.bind_reading hyields fun base hbase ↦ ?_)
  exact .of_ok (bind_of_ok (modify_apply _ _)) (.mapPrivate hhandle hc hlen (hlimit ▸ hinside) hbase)

theorem map_does (honest : env.Honest s) (htrust : s.Trusts file)
    (off len : ℕ) (access : UInt32) (shared : Bool) :
    Does env s (.map file off len access shared) (Reply.mapped <$> map env file off len access shared) := by
  refine .map (.bind_reading (range_yields htrust off len access shared) fun x hx ↦ ?_)
  obtain ⟨granted, c, hhandle, hc, hlimit, hlen, hinside⟩ := hx
  cases shared with
  | true => exact mapShared_does hready honest access hhandle hc hlimit hlen hinside
  | false => exact mapPrivate_does access hhandle hc hlimit hlen hinside

theorem unmapShared_eq {key : ℕ × ℕ} {n : ℕ} (h : s.mappings[key]? = some (.shared id n)) :
    unmapShared key id n s =
      .ok () ((((if n - 1 = 0 then Record.drop key else Record.put key (.shared id (n - 1))) s).modifyNode
        id Node.unmapped).reaped id) := by
  obtain ⟨hpos, hsome⟩ := hready.sound.life.mapping_file key id n h
  obtain ⟨c, hc⟩ := isSome_iff_exists.mp hsome
  obtain ⟨node, hnode, _⟩ := exists_node_of_content? hc
  have hnodes : ((if n - 1 = 0 then Record.drop key else Record.put key (.shared id (n - 1))) s).nodes =
      s.nodes := by
    split <;> rfl
  have hused :
    ((if n - 1 = 0 then Record.drop key else Record.put key (.shared id (n - 1))) s).used = s.used := by
    split <;> rfl
  have hlive :
    id ∈ ((if n - 1 = 0 then Record.drop key else Record.put key (.shared id (n - 1))) s).nodes := by
    rw [hnodes]
    exact mem_nodes_iff.mpr ⟨node, hnode⟩
  have haccounted : ((if n - 1 = 0 then Record.drop key else Record.put key (.shared id (n - 1)))
      s).core.Accounted := by
    rw [accounted_iff, hnodes, hused, ← accounted_iff]
    exact hready.sound.accounted
  unfold unmapShared
  rw [bind_of_ok (refuseIf_eq_ok_iff.mpr ⟨Nat.ne_of_gt hpos, rfl⟩), bind_of_ok (modify_apply _ _),
    bind_of_ok (updateNode_eq _ hlive)]
  exact reap_eq id (accounted_modifyNode (fun _ ↦ rfl) haccounted)

theorem unmap_does (addr len : ℕ) :
    Does env s (.unmap addr len) ((fun _ ↦ Reply.done) <$> unmap addr len) := by
  refine .map (.bind_reading (Result.required_yields _ _) fun x hmapping ↦ ?_)
  cases x with
  | shared id n => exact .of_ok (unmapShared_eq hready hmapping) (.unmapShared hmapping)
  | privateCopy memory => exact .of_ok (modify_apply _ _) (.unmapPrivate hmapping)

omit hready in
theorem sync_does (addr len : ℕ) : Does env s (.sync addr len) ((fun _ ↦ Reply.done) <$> sync addr len) :=
  .map (.bind_reading (Result.required_yields _ _) fun _ _ ↦ .of_ok rfl (.quiet trivial))

theorem store_does {addr len i : ℕ} (v : UInt8)
    (hmapping : (s.mappings[(addr, len)]?).isSome) (hindex : i < len) :
    Does env s (.store addr len i v) ((fun _ ↦ Reply.done) <$> store addr len i v) := by
  obtain ⟨x, hx⟩ := isSome_iff_exists.mp hmapping
  cases x with
  | shared id n =>
    obtain ⟨base, cap, hblock, hle, hend, _⟩ := hready.sound.memory.shared_inside _ _ _ _ hx
    obtain ⟨c, hc, hpages⟩ := bind_eq_some_iff.mp hblock
    cases c with
    | plain bytes => cases hpages
    | pinned b =>
      cases hpages
      have hstored : stored addr len i v s = .ok (s.modifyNode id (Node.withContent
          (.pinned { b with memory := b.memory.set (addr + i - b.base) v }))) := by
        have hinto : storeInto (.pinned b) (addr + i) v =
            .ok (.pinned { b with memory := b.memory.set (addr + i - b.base) v }) :=
          if_pos ⟨by omega, by omega⟩
        simp only [stored, hx]
        rw [content_eq_ok_iff.mpr hc]
        change (storeInto (.pinned b) (addr + i) v >>= _) = _
        rw [hinto]
        rfl
      have hrun : store addr len i v s = .ok () _ := bind_of_ok (reading_of_ok hstored)
      exact .map (.of_ok hrun (.storeShared hx hindex hc hle (by omega)))
  | privateCopy memory =>
    have hstored : stored addr len i v s =
      .ok (Record.put (addr, len) (.privateCopy (memory.set i v)) s) := by
      simp only [stored, hx]
      rfl
    have hrun : store addr len i v s = .ok () _ := bind_of_ok (reading_of_ok hstored)
    exact .map (.of_ok hrun (.storePrivate hx))

end Mappings

/-! ## All calls -/

/-- Every call but a lock on a whole file refuses without a trace or does its deed. -/
theorem exec_does (hready : s.Ready) (honest : env.Honest s) {call : Call} (htrusted : call.Trusted s)
    (hlock : ∀ file mode wait, call ≠ .lock file mode wait) : Does env s call (exec env call) := by
  have htrust : ∀ addr, call.handle? = some addr → s.Trusts addr := htrusted.handle
  cases call with
  | openFile path flags mode => exact Files.openFile_does hready path flags mode
  | close file => exact Files.close_does hready (htrust file rfl)
  | readAt file off cap => exact Files.readAt_does (htrust file rfl) off cap
  | writeAt file off data => exact Files.writeAt_does hready (htrust file rfl) off data
  | setSize file size => exact Files.setSize_does hready (htrust file rfl) size
  | flush file => exact Files.flush_does (htrust file rfl)
  | status file =>
    exact Files.reading_does
      ((fileNode_yields (htrust file rfl) _).bind fun id _ ↦ Files.status_yields id) fun _ h ↦ h
  | pathStatus path follow =>
    exact Files.reading_does
      ((Files.resolve_yields path follow).bind fun id _ ↦ Files.status_yields id) fun _ h ↦ h
  | remove path => exact Files.remove_does hready path
  | rename source target => exact Files.rename_does hready source target
  | createDirectory path mode => exact Files.createDirectory_does hready path mode
  | removeDirectory path => exact Files.removeDirectory_does hready path
  | openDirectory path => exact Files.openDirectory_does path
  | readDirectory dir cap => exact Files.readDirectory_does hready (htrust dir rfl) cap
  | closeDirectory dir => exact Files.closeDirectory_does (htrust dir rfl)
  | currentDirectory cap => exact Files.reading_does (Files.currentDirectory_yields hready cap) fun _ h ↦ h
  | setMode path mode =>
    exact .map (.bind_reading (Files.resolve_yields path true) fun id _ ↦
      Files.setNodeMode_does (by trivial) id mode)
  | setFileMode file mode =>
    exact .map (.bind_reading (fileNode_yields (htrust file rfl) _) fun id _ ↦
      Files.setNodeMode_does (by trivial) id mode)
  | setTimes path follow accessed modified =>
    exact .map (.bind_reading (Files.resolve_yields path follow) fun id _ ↦
      Files.setNodeTimes_does (by trivial) id fun hnone ↦ hnone)
  | setFileTimes file accessed modified =>
    exact .map (.bind_reading (fileNode_yields (htrust file rfl) _) fun id _ ↦
      Files.setNodeTimes_does (by trivial) id fun hnone ↦ hnone)
  | link existing created => exact Files.link_does hready existing created
  | symlink target created => exact Files.symlink_does hready target created
  | readLink path cap => exact Files.reading_does (Files.readLink_yields path cap) fun _ h ↦ h
  | realPath path cap => exact Files.reading_does (Files.realPath_yields hready path cap) fun _ h ↦ h
  | setCurrentDirectory path => exact Files.setCurrentDirectory_does path
  | lock file mode wait => exact absurd rfl (hlock file mode wait)
  | lockRange file off len mode => exact Files.lockRange_does hready (htrust file rfl) off len mode
  | openWatcher => exact Watches.openWatcher_does
  | closeWatcher w => exact Watches.closeWatcher_does (htrust w rfl)
  | addWatch w path events => exact Watches.add_does hready (htrust w rfl) path events
  | removeWatch w watch => exact Watches.remove_does (htrust w rfl) watch
  | look w => exact Watches.look_does hready (htrust w rfl)
  | map file off len access shared =>
    exact Mappings.map_does hready honest (htrust file rfl) off len access shared
  | unmap addr len => exact Mappings.unmap_does hready addr len
  | sync addr len => exact Mappings.sync_does addr len
  | setCapacity bytes => exact .map (.of_ok (modify_apply _ _) .setCapacity)
  | store addr len i v =>
    obtain ⟨hmapping, hindex⟩ := htrusted.store addr len i v rfl
    exact Mappings.store_does hready v hmapping hindex

/-- What a lock call does to the state where it fails after all. -/
structure GaveUp (s : State) (file : ℕ) (s' : State) : Prop where
  given : ∃ (id : ℕ) (granted : UInt32) (node : Node) (locks : Vec Lock) (mode : Files.LockMode),
    s.handles[file]? = some (.file id granted) ∧ s.nodes[id]? = some node ∧
      s' = s.modifyNode id (Node.withLocks locks) ∧
      locks.data.Perm (carved (Files.wholeLock file mode) node.locks.data)

/-- Every call returns with its deed done, or refuses with everything as it was; a refused lock on a
whole file may have given up the one its handle had. -/
theorem exec_cases (hready : s.Ready) (honest : env.Honest s) {call : Call} (htrusted : call.Trusted s) :
    (∃ reply s', exec env call s = .ok reply s' ∧ Deed env s call reply s') ∨
      ∃ (error : Error) (s' : State), exec env call s = .error error s' ∧
        (s' = s ∨ ∃ file mode wait, call = .lock file mode wait ∧ GaveUp s file s') := by
  by_cases hlock : ∃ file mode wait, call = .lock file mode wait
  · obtain ⟨file, mode, wait, rfl⟩ := hlock
    rcases Files.lock_cases env hready (htrusted.handle file rfl) mode wait with
      hatomic | ⟨error, id, granted, node, locks, hhandle, hnode, hrun, hperm⟩
    · rcases (Atomic.map hatomic : Does env s (.lock file mode wait) (exec env (.lock file mode wait))) with
        ⟨fault, ⟨error, rfl⟩, hrun⟩ | ⟨reply, s', hrun, hdeed⟩
      · exact .inr ⟨error, s, hrun, .inl rfl⟩
      · exact .inl ⟨reply, s', hrun, hdeed⟩
    · refine .inr ⟨error, _, ?_,
        .inr ⟨file, mode, wait, rfl, ⟨id, granted, node, locks, mode, hhandle, hnode, rfl, hperm⟩⟩⟩
      change EStateM.map _ _ _ = _
      simp only [EStateM.map, hrun]
  · rcases exec_does hready honest htrusted fun file mode wait h ↦ hlock ⟨file, mode, wait, h⟩ with
      ⟨fault, ⟨error, rfl⟩, hrun⟩ | ⟨reply, s', hrun, hdeed⟩
    · exact .inr ⟨error, s, hrun, .inl rfl⟩
    · exact .inl ⟨reply, s', hrun, hdeed⟩

end DotnetPal.Memfs
