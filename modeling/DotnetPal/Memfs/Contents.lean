import DotnetPal.Memfs.WatchGuarantees

/-!
# Files are byte arrays, however they are kept

A reference keeps one byte array for each file and, for each shared range, the file and the offset
it was mapped at. It follows the calls beside the provider and knows nothing of arrays, pages or
allocators. Reads and new private mappings of the provider see what the reference holds.
-/

open Std Option

namespace DotnetPal.Memfs

open Programs Relation OrderedMap Node

attribute [local instance] lexOrd

/-! ## The reference -/

structure Reference where
  files : ℕ → Bytes
  /-- The file and the offset of a shared range. -/
  windows : ℕ × ℕ → Option (ℕ × ℕ)

namespace Reference

/-- No file holds a byte and nothing is mapped. -/
def empty : Reference := ⟨fun _ ↦ [], fun _ ↦ none⟩

def edit (file : Option ℕ) (change : Bytes → Bytes) (ref : Reference) : Reference :=
  match file with
  | some id => { ref with files := Function.update ref.files id (change (ref.files id)) }
  | none => ref

/-- A store at an offset changes the file where the offset is below its size. -/
def stored (offset : ℕ) (value : UInt8) (bytes : Bytes) : Bytes :=
  if offset < bytes.length then bytes.set offset value else bytes

def withWindow (key : ℕ × ℕ) (window : Option (ℕ × ℕ)) (ref : Reference) : Reference :=
  { ref with windows := Function.update ref.windows key window }

/-- What a call that returned did to the files. `on` is the file a handle is open on. -/
def follow (on : ℕ → Option ℕ) (call : Call) (reply : Reply) (ref : Reference) : Reference :=
  match call, reply with
  | .openFile _ flags _, .handle file =>
    if flags &&& Files.truncate ≠ 0 then ref.edit (on file) fun _ ↦ [] else ref
  | .writeAt file offset data, _ => ref.edit (on file) (Extents.overwrite 0 · offset data)
  | .setSize file size, _ => ref.edit (on file) (Extents.resize 0 · size)
  | .map file offset length _ true, .mapped addr =>
    ref.withWindow (addr, length) ((on file).map fun id ↦ (id, offset))
  | .map _ _ length _ false, .mapped addr => ref.withWindow (addr, length) none
  | .store addr length i value, _ =>
    match ref.windows (addr, length) with
    | some (id, offset) => ref.edit (some id) (stored (offset + i) value)
    | none => ref
  | _, _ => ref

end Reference

/-- The calls that may change what a file holds, or map it. -/
def Call.Edits : Call → Prop
  | .openFile .. | .writeAt .. | .setSize .. | .map .. | .store .. => True
  | _ => False

theorem Call.Edits.not_has {call : Call} (h : call.Edits) {s : State} {reply : Reply} {effect : Effect} :
    ¬call.Has s reply effect := by
  cases call <;> first | exact h.elim | exact id

/-- The file a handle is open on. -/
def State.fileOf (s : State) (addr : ℕ) : Option ℕ := s.handles[addr]?.bind Handle.node?

/-- The provider with the reference beside it. -/
def tracked : System (State × Reference) where
  start tracked := tracked = (State.first, Reference.empty)
  step before next := ∃ env call, env.Honest before.1 ∧ call.Trusted before.1 ∧
    match exec env call before.1 with
    | .ok reply s' => next = (s', before.2.follow s'.fileOf call reply)
    | .error _ s' => next = (s', before.2)

namespace State

variable {s middle s' : State} {ref : Reference} {env : Env} {call : Call} {reply : Reply} {id : ℕ}

/-- The reference holds what the files hold, and knows where the shared ranges are. -/
structure Refines (s : State) (ref : Reference) : Prop where
  files : ∀ id c, s.core.content? id = some c → ref.files id = c.bytes
  fresh : ∀ id, s.nextId ≤ id → ref.files id = []
  shared : ∀ (addr length id count : ℕ), s.mappings[(addr, length)]? = some (.shared id count) →
    ∃ pages offset, s.core.content? id = some (.pinned pages) ∧ addr = pages.base + offset ∧
      ref.windows (addr, length) = some (id, offset)
  copies : ∀ (key : ℕ × ℕ) (memory : Bytes), s.mappings[key]? = some (.privateCopy memory) →
    ref.windows key = none

/-- What changes no content and maps nothing; nodes and mappings may go. -/
structure Keeps (s s' : State) : Prop where
  contents : ∀ id c, s'.core.content? id = some c → s.core.content? id = some c
  shared : ∀ (key : ℕ × ℕ) (id count : ℕ), s'.mappings[key]? = some (.shared id count) →
    ∃ times, s.mappings[key]? = some (.shared id times)
  copies : ∀ (key : ℕ × ℕ) (memory : Bytes), s'.mappings[key]? = some (.privateCopy memory) →
    ∃ before, s.mappings[key]? = some (.privateCopy before)
  nextId_le : s.nextId ≤ s'.nextId

theorem Keeps.of_mappings (hcontents : ∀ id c, s'.core.content? id = some c → s.core.content? id = some c)
    (hmappings : s'.mappings = s.mappings) (hnext : s.nextId ≤ s'.nextId) : s.Keeps s' := by
  refine ⟨hcontents, fun key id n hmapping ↦ ⟨n, ?_⟩, fun key memory hmapping ↦ ⟨memory, ?_⟩, hnext⟩ <;>
    rwa [hmappings] at hmapping

theorem Keeps.refl : s.Keeps s := .of_mappings (fun _ _ h ↦ h) rfl (Nat.le_refl _)

theorem Keeps.trans (a : s.Keeps middle) (b : middle.Keeps s') : s.Keeps s' where
  contents := fun id c h ↦ a.contents id c (b.contents id c h)
  shared := by
    intro key id n hmapping
    obtain ⟨times, htimes⟩ := b.shared key id n hmapping
    exact a.shared key id times htimes
  copies := by
    intro key memory hmapping
    obtain ⟨old, hold⟩ := b.copies key memory hmapping
    exact a.copies key old hold
  nextId_le := a.nextId_le.trans b.nextId_le

/-- What is not about nodes, mappings or ids changes no content. -/
theorem Keeps.of_eq (hnodes : s'.nodes = s.nodes) (hmappings : s'.mappings = s.mappings)
    (hnext : s'.nextId = s.nextId) : s.Keeps s' := by
  refine .of_mappings (fun id c hc ↦ ?_) hmappings hnext.ge
  rw [content?_core, hnodes] at hc
  rwa [content?_core]

theorem content?_modifyNode (change : Node → Node) (j : ℕ)
    (h : ∀ node, (change node).body.content? = node.body.content?) :
    (s.modifyNode id change).core.content? j = s.core.content? j := by
  rw [content?_core, content?_core, modifyNode, get_modify]
  split
  · cases s.nodes[j]? with
    | none => rfl
    | some node => exact h node
  · rfl

theorem Keeps.modifyNode (id : ℕ) (change : Node → Node)
    (h : ∀ node, (change node).body.content? = node.body.content?) :
    s.Keeps (s.modifyNode id change) :=
  .of_mappings (fun j c hc ↦ by rwa [content?_modifyNode change j h] at hc) rfl (Nat.le_refl _)

theorem Keeps.frame (h : s.Frame s') : s.Keeps s' := by
  refine .of_mappings (fun id c hc ↦ ?_) h.mappings h.nextId.ge
  obtain ⟨node, hnode, hbody⟩ := exists_node_of_content? hc
  obtain ⟨old, hold, _, hsame⟩ := h.nodes id node hnode
  rw [content?_core, hold, bind_some, ← hsame, hbody]
  rfl

/-- A new node is the only one whose content is new. -/
theorem content?_created (env : Env) (p : Place) (mode : UInt32) (body : Body) (j : ℕ) :
    (s.created env p mode body).core.content? j =
      if s.nextId = j then body.content? else s.core.content? j := by
  rw [core_created, Core.content?, Core.content?, Core.get_files, Core.get_files, Core.attached]
  simp only [get_insert]
  rw [show s.core.nextId = s.nextId from rfl]
  split
  · rfl
  · rw [get_modify]
    split
    · cases s.core.nodes[j]? with
      | none => rfl
      | some kept => exact congrArg FilePart.content (Kept.filePart_withEntries kept _)
    · rfl

theorem Keeps.created (env : Env) (p : Place) (mode : UInt32) {body : Body} (hbody : body.content? = none) :
    s.Keeps (s.created env p mode body) := by
  refine .of_mappings (fun j c hc ↦ ?_) rfl (Nat.le_succ _)
  rw [content?_created, hbody] at hc
  split at hc
  · cases hc
  · exact hc

/-- What changes no content keeps what the reference says. -/
theorem Refines.keep (h : s.Refines ref) (hkeeps : s.Keeps s') (hs : s'.core.Sound none) :
    s'.Refines ref where
  files := fun id c hc ↦ h.files id c (hkeeps.contents id c hc)
  fresh := fun id hid ↦ h.fresh id (hkeeps.nextId_le.trans hid)
  shared := by
    intro addr len id n hmapping
    obtain ⟨x, hx⟩ := isSome_iff_exists.mp (hs.life.mapping_file _ _ _ hmapping).2
    obtain ⟨times, hold⟩ := hkeeps.shared _ _ _ hmapping
    obtain ⟨b, off, hc, haddr, hwindow⟩ := h.shared addr len id times hold
    rw [hkeeps.contents id x hx, some.injEq] at hc
    exact ⟨b, off, hc ▸ hx, haddr, hwindow⟩
  copies := by
    intro key memory hmapping
    obtain ⟨old, hold⟩ := hkeeps.copies key memory hmapping
    exact h.copies key old hold

/-! ## What changes content -/

theorem Reference.files_edit (id j : ℕ) (change : Bytes → Bytes) :
    (ref.edit (some id) change).files j = if j = id then change (ref.files id) else ref.files j := by
  by_cases hj : j = id
  · subst hj
    simp [Reference.edit]
  · simp [Reference.edit, hj]

variable {c : Content}

/-- A file that is there is below the next id. -/
theorem lt_nextId (hs : s.core.Sound none) (h : s.core.content? id = some c) : id < s.nextId := by
  obtain ⟨node, hnode, _⟩ := exists_node_of_content? h
  exact hs.below id node.kept.shape (by rw [Core.get_shapes, get_core, hnode]; rfl)

variable {node : Node} {key : ℕ × ℕ}

/-- A file with a shared range is counted as mapped. -/
theorem Steady.maps_pos (h : s.Steady) (hnode : s.nodes[id]? = some node) {n : ℕ}
    (hmapping : s.mappings[key]? = some (.shared id n)) : 0 < node.maps := by
  have hweight := weight_le_total (fun _ mapped ↦ Mapped.countOn id mapped) s.mappings hmapping
  rw [Mapped.countOn_self] at hweight
  rw [(h.counts hnode).2]
  exact Nat.lt_of_lt_of_le (h.sound.life.mapping_file key id n hmapping).1 hweight

/-- A mapped file has its pages. -/
theorem Refines.pinned (h : s.Refines ref) (hsteady : s.Steady) (hnode : s.nodes[id]? = some node)
    (hmaps : 0 < node.maps) : ∃ b, s.core.content? id = some (.pinned b) := by
  rw [(hsteady.counts hnode).2] at hmaps
  obtain ⟨⟨addr, len⟩, n, hmapping⟩ := exists_shared hmaps
  obtain ⟨b, _, hc, _⟩ := h.shared addr len id n hmapping
  exact ⟨b, hc⟩

/-- One file gets another content, with its pages where they were if it is mapped. -/
structure Rewritten (s s' : State) (id : ℕ) (old new : Content) : Prop where
  before : s.core.content? id = some old
  after : ∀ other, s'.core.content? other = if id = other then some new else s.core.content? other
  mappings : s'.mappings = s.mappings
  nextId : s'.nextId = s.nextId
  pages : ∀ node, s.nodes[id]? = some node → 0 < node.maps → new.pages? = old.pages?

/-- The reference gives the file the same bytes. -/
theorem Refines.rewrite (h : s.Refines ref) (hsteady : s.Steady) {old new : Content}
    {change : Bytes → Bytes}
    (hnew : Rewritten s s' id old new) (hbytes : new.bytes = change old.bytes) :
    s'.Refines (ref.edit (some id) change) where
  files := by
    intro j c hc
    rw [hnew.after] at hc
    rw [Reference.files_edit]
    split at hc
    · rename_i hj
      cases hc
      rw [if_pos hj.symm, h.files id old hnew.before, hbytes]
    · rename_i hj
      rw [if_neg (Ne.symm hj)]
      exact h.files j c hc
  fresh := by
    intro j hj
    rw [hnew.nextId] at hj
    have hne : j ≠ id := by
      rintro rfl
      exact absurd (lt_nextId hsteady.sound hnew.before) (Nat.not_lt.mpr hj)
    rw [Reference.files_edit, if_neg hne]
    exact h.fresh j hj
  shared := by
    intro addr len owner n hmapping
    rw [hnew.mappings] at hmapping
    obtain ⟨b, off, hc, haddr, hwindow⟩ := h.shared addr len owner n hmapping
    by_cases howner : id = owner
    · subst howner
      obtain ⟨node, hnode, _⟩ := exists_node_of_content? hc
      have hsame := hnew.pages node hnode (hsteady.maps_pos hnode hmapping)
      rw [hnew.before, some.injEq] at hc
      rw [hc] at hsame
      cases hkept : new with
      | plain bytes =>
        rw [hkept] at hsame
        cases hsame
      | pinned kept =>
        rw [hkept, Content.pages?, Content.pages?, some.injEq, Prod.mk.injEq] at hsame
        refine ⟨kept, off, by rw [hnew.after, if_pos rfl, hkept], by rw [hsame.1]; exact haddr, hwindow⟩
    · exact ⟨b, off, by rw [hnew.after, if_neg howner]; exact hc, haddr, hwindow⟩
  copies := fun key memory hmapping ↦ h.copies key memory (hnew.mappings ▸ hmapping)

theorem content?_withContent (hnode : s.nodes[id]? = some node) (j : ℕ) :
    (s.modifyNode id (withContent c)).core.content? j =
      if id = j then some c else s.core.content? j := by
  rw [content?_core, content?_core, modifyNode, get_modify]
  split
  · rename_i hj
    rw [← hj, hnode]
    rfl
  · rfl

theorem content?_changed {old new : Content} (hnode : s.nodes[id]? = some node) (told : Bool) (j : ℕ) :
    (s.changed env id told old new).core.content? j =
      if id = j then some new else s.core.content? j := by
  rw [← content?_withContent hnode, core_changed, Core.edited, core_modifyNode fun node ↦
    kept_withContent node _]
  rfl

theorem mappings_changed (told : Bool) (old new : Content) :
    (s.changed env id told old new).mappings = s.mappings ∧ (s.changed env id told old new).nextId =
      s.nextId := by
  unfold changed applyIf
  split <;> exact ⟨rfl, rfl⟩

theorem Rewritten.changed {old new : Content} {bytes : Bytes} (hnode : s.nodes[id]? = some node)
    (hbody : node.body = .file old) (told : Bool)
    (hedited : Content.Edited old (s.capacity - s.used) (node.maps ≠ 0) bytes new) :
    Rewritten s (s.changed env id told old new) id old new := by
  refine ⟨content?_of_node hnode hbody, content?_changed hnode told, (mappings_changed told old new).1,
    (mappings_changed told old new).2, fun x hx hmaps ↦ ?_⟩
  rw [hnode, some.injEq] at hx
  subst hx
  exact hedited.stays (by simpa using hmaps.ne')

variable {b : Pinned}

/-- A store leaves the pages where they are. -/
theorem Rewritten.stored (hc : s.core.content? id = some (.pinned b)) (off : ℕ) (v : UInt8) :
    Rewritten s (s.modifyNode id (withContent
      (.pinned { b with memory := b.memory.set off v }))) id (.pinned b)
      (.pinned { b with memory := b.memory.set off v }) := by
  obtain ⟨node, hnode, _⟩ := exists_node_of_content? hc
  exact ⟨hc, content?_withContent hnode, rfl, rfl, fun _ _ _ ↦ rfl⟩

variable (h : s.Refines ref)
include h

/-- A file that is mapped already has its pages. -/
theorem Rewritten.pinned (hsteady : s.Steady)
    (hc : s.core.content? id = some c) (hpinned : PinnedTo env c b) :
    Rewritten s (s.modifyNode id (withContent (.pinned b))) id c (.pinned b) := by
  obtain ⟨node, hnode, _⟩ := exists_node_of_content? hc
  refine ⟨hc, content?_withContent hnode, rfl, rfl, fun x hx hmaps ↦ ?_⟩
  rcases hpinned with rfl | ⟨hplain, _⟩
  · rfl
  · obtain ⟨kept, hkept⟩ := h.pinned hsteady hx hmaps
    rw [hc, some.injEq] at hkept
    rw [hkept] at hplain
    cases hplain

/-! ## Mappings and stores -/

omit h in
theorem bytes_set (b : Pinned) (off : ℕ) (v : UInt8) :
    (Content.pinned { b with memory := b.memory.set off v }).bytes =
      Reference.stored off v (Content.pinned b).bytes := by
  change (b.memory.set off v).take b.size = _
  rw [List.take_set, Reference.stored]
  split
  · rfl
  · rename_i hout
    exact List.set_eq_of_length_le (Nat.not_lt.mp hout)

theorem Refines.storeShared (hsteady : s.Steady) (on : ℕ → Option ℕ) {addr len i n : ℕ} {v : UInt8}
    (hmapping : s.mappings[(addr, len)]? = some (.shared id n))
    (hc : s.core.content? id = some (.pinned b)) :
    (s.modifyNode id (withContent
      (.pinned { b with memory := b.memory.set (addr + i - b.base) v }))).Refines
      (ref.follow on (.store addr len i v) .done) := by
  obtain ⟨x, off, hx, haddr, hwindow⟩ := h.shared addr len id n hmapping
  rw [hc, some.injEq, Content.pinned.injEq] at hx
  subst hx
  have hoffset : addr + i - b.base = off + i := by omega
  simp only [Reference.follow, hwindow, hoffset]
  exact h.rewrite hsteady (.stored hc _ v) (bytes_set b _ v)

/-- A new record, with the window the reference keeps for it. -/
theorem Refines.put (key : ℕ × ℕ) {mapped : Mapped} {window : Option (ℕ × ℕ)}
    (hshared : ∀ id n, mapped = .shared id n → ∃ b off, s.core.content? id = some (.pinned b) ∧
      key.1 = b.base + off ∧ window = some (id, off))
    (hcopies : ∀ memory, mapped = .privateCopy memory → window = none) :
    (Mappings.Record.put key mapped s).Refines (ref.withWindow key window) where
  files := h.files
  fresh := h.fresh
  shared := by
    intro addr len id n hmapping
    rcases insert_cases hmapping with ⟨rfl, hnew⟩ | ⟨hkey, hmapping⟩
    · obtain ⟨b, off, hc, haddr, hwindow⟩ := hshared id n hnew
      exact ⟨b, off, hc, haddr, (Function.update_self _ _ _).trans hwindow⟩
    · obtain ⟨b, off, hc, haddr, hwindow⟩ := h.shared addr len id n hmapping
      exact ⟨b, off, hc, haddr, (Function.update_of_ne (Ne.symm hkey) _ _).trans hwindow⟩
  copies := by
    intro j memory hmapping
    rcases insert_cases hmapping with ⟨rfl, hnew⟩ | ⟨hkey, hmapping⟩
    · exact (Function.update_self _ _ _).trans (hcopies memory hnew)
    · exact (Function.update_of_ne (Ne.symm hkey) _ _).trans (h.copies j memory hmapping)

/-- Contents, mappings and ids stay. -/
theorem Refines.of_contents (hcontents : ∀ id, s'.core.content? id = s.core.content? id)
    (hmappings : s'.mappings = s.mappings) (hnext : s'.nextId = s.nextId) : s'.Refines ref where
  files := fun id c hc ↦ h.files id c (by rwa [hcontents] at hc)
  fresh := fun id hid ↦ h.fresh id (by rwa [hnext] at hid)
  shared := by
    intro addr len id n hmapping
    rw [hmappings] at hmapping
    rw [hcontents]
    exact h.shared addr len id n hmapping
  copies := fun key memory hmapping ↦ h.copies key memory (by rwa [hmappings] at hmapping)

theorem Refines.mapShared (hsteady : s.Steady) (off len n : ℕ) (hc : s.core.content? id = some c)
    (hpinned : PinnedTo env c b) :
    ((Mappings.Record.put (b.base + off, len) (.shared id (n + 1))
      (s.modifyNode id (withContent (.pinned b)))).modifyNode id mapped).Refines
        (ref.withWindow (b.base + off, len) (some (id, off))) := by
  obtain ⟨node, hnode, _⟩ := exists_node_of_content? hc
  have hbytes : (Content.pinned b).bytes = c.bytes := by
    rcases hpinned with rfl | ⟨_, _, _, _, hbytes⟩
    · rfl
    · exact hbytes
  have hmoved : State.Refines _ (ref.edit (some id) fun bytes ↦ bytes) :=
    h.rewrite hsteady (.pinned h hsteady hc hpinned) hbytes
  have hsame : ref.edit (some id) (fun bytes ↦ bytes) = ref := by
    simp [Reference.edit]
  rw [hsame] at hmoved
  have hrecord : (Mappings.Record.put (b.base + off, len) (.shared id (n + 1)) _).Refines
      (ref.withWindow _ (some (id, off))) := hmoved.put _
    (fun _ _ howner ↦
      ⟨b, off, by cases howner; rw [content?_withContent hnode, if_pos rfl], rfl, by cases howner; rfl⟩)
    fun _ hcopy ↦ by cases hcopy
  exact hrecord.of_contents (fun j ↦ content?_modifyNode mapped j fun _ ↦ rfl) rfl rfl

omit h in
/-- A private mapping that is stored through, or a shared one that counts fewer times. -/
theorem Keeps.put {old new : Mapped} (hmapping : s.mappings[key]? = some old)
    (hshared : ∀ id n, new = .shared id n → ∃ times, old = .shared id times)
    (hcopies : ∀ memory, new = .privateCopy memory → ∃ x, old = .privateCopy x) :
    s.Keeps (Mappings.Record.put key new s) where
  contents := fun _ _ h ↦ h
  shared := by
    intro j id n hj
    rcases insert_cases hj with ⟨rfl, hnew⟩ | ⟨_, hj⟩
    · obtain ⟨times, htimes⟩ := hshared id n hnew
      exact ⟨times, by rw [hmapping, htimes]⟩
    · exact ⟨n, hj⟩
  copies := by
    intro j memory hj
    rcases insert_cases hj with ⟨rfl, hnew⟩ | ⟨_, hj⟩
    · obtain ⟨x, hx⟩ := hcopies memory hnew
      exact ⟨x, by rw [hmapping, hx]⟩
    · exact ⟨memory, hj⟩
  nextId_le := Nat.le_refl _

omit h in
theorem Keeps.drop (key : ℕ × ℕ) : s.Keeps (Mappings.Record.drop key s) := by
  refine ⟨fun _ _ h ↦ h, fun j owner times hj ↦ ?_, fun j memory hj ↦ ?_, Nat.le_refl _⟩ <;>
  · rw [Mappings.Record.drop] at hj
    exact ⟨_, (get_of_erase hj).2⟩

omit h in
theorem Keeps.lessen {n : ℕ} (hmapping : s.mappings[key]? = some (.shared id n)) :
    s.Keeps (((if n - 1 = 0 then Mappings.Record.drop key
      else Mappings.Record.put key (.shared id (n - 1))) s).modifyNode id unmapped) := by
  refine Keeps.trans ?_ (.modifyNode id unmapped fun _ ↦ rfl)
  split
  · exact .drop key
  · exact .put hmapping (fun _ _ h ↦ ⟨n, by cases h; rfl⟩) (by simp)

/-! ## Opening -/

/-- A new file is empty, as the reference has it. -/
theorem Refines.createdFile (hs : s.core.Sound none) (env : Env) (p : Place)
    (mode : UInt32) : (s.created env p mode (.file (.plain Vec.empty))).Refines ref where
  files := by
    intro j c hc
    rw [content?_created] at hc
    split at hc
    · rename_i hj
      cases hc
      exact h.fresh j (Nat.le_of_eq hj)
    · exact h.files j c hc
  fresh := fun j hj ↦ h.fresh j (Nat.le_of_succ_le hj)
  shared := by
    intro addr len owner n hmapping
    obtain ⟨b, off, hc, haddr, hwindow⟩ := h.shared addr len owner n hmapping
    refine ⟨b, off, ?_, haddr, hwindow⟩
    rw [content?_created, if_neg (lt_nextId hs hc).ne']
    exact hc
  copies := fun key memory hmapping ↦ h.copies key memory hmapping

theorem Refines.of_opening (hsteady : s.Steady) {flags mode : UInt32}
    (hopening : Opening env s flags mode id middle) :
    middle.Refines (if flags &&& Files.truncate ≠ 0 then ref.edit (some id) fun _ ↦ [] else ref) := by
  cases hopening with
  | found _ hflags => rwa [if_neg (not_not.mpr hflags)]
  | truncated hnode hbody hflags hedited =>
    rw [if_pos hflags]
    have hcleared : (fun _ : Bytes ↦ ([] : Bytes)) = (Extents.resize 0 · 0) := by
      funext bytes
      simp [Extents.resize]
    rw [hcleared]
    exact h.rewrite hsteady (.changed hnode hbody false hedited) hedited.bytes_eq
  | @created p _ =>
    have hcreated := h.createdFile hsteady.sound env p mode
    split
    · -- The reference holds nothing for an id that is not given out yet.
      have hsame : ref.edit (some s.nextId) (fun _ ↦ []) = ref := by
        rw [Reference.edit, ← h.fresh s.nextId (Nat.le_refl _), Function.update_eq_self]
      rwa [hsame]
    · exact hcreated

omit h

/-! ## Every call -/

theorem Reference.follow_of_not_edits (on : ℕ → Option ℕ) (hcall : ¬call.Edits) :
    ref.follow on call reply = ref := by
  cases call <;> first | rfl | exact (hcall trivial).elim

/-- Every other call keeps the contents. -/
theorem Keeps.of_deed (hdeed : Deed env s call reply s') (hcall : ¬call.Edits) : s.Keeps s' := by
  cases hdeed with
  | quiet _ => exact .refl
  | @close file id _ _ =>
    have hdropped : s.Keeps (s.dropHandle file) := .of_eq rfl rfl rfl
    exact (hdropped.trans (.modifyNode id (closed file) fun _ ↦ rfl)).trans
      (.frame ((Frame.refl _).reaped id))
  | readAt _ _ => exact .frame (.read ..)
  | remove _ _ _ _ => exact .frame (.removed ..)
  | rename _ => exact .frame (.renamed ..)
  | @create _ mode body p _ _ _ hbody => exact .created env p mode hbody
  | link _ _ _ => exact .frame (.linked ..)
  | @attributes _ id change _ hchange =>
    have hkept : ∀ node, (change node).body.content? = node.body.content? :=
      fun node ↦ congrArg (fun kept : Kept ↦ kept.filePart.content) (hchange node).1
    exact (Keeps.modifyNode id change hkept).trans (.of_eq rfl rfl rfl)
  | @locks _ _ _ id _ locks _ _ _ => exact .modifyNode id (withLocks locks) fun _ ↦ rfl
  | unmapShared hmapping => exact (Keeps.lessen hmapping).trans (.frame ((Frame.refl _).reaped _))
  | unmapPrivate _ => exact .drop _
  | openDirectory | readDirectory | closeDirectory | work | openWatcher | closeWatcher | addWatch
    | removeWatch | look
  | setCapacity => exact .of_eq rfl rfl rfl
  | openFile | writeAt | setSize | mapShared | mapPrivate | storeShared | storePrivate =>
    exact (hcall trivial).elim

/-- The reference follows every call that returns. -/
theorem Refines.of_deed (h : s.Refines ref) (hsteady : s.Steady) (hdeed : Deed env s call reply s')
    (hfinal : s'.core.Sound none) : s'.Refines (ref.follow s'.fileOf call reply) := by
  by_cases hcall : call.Edits
  swap
  · rw [Reference.follow_of_not_edits _ hcall]
    exact h.keep (.of_deed hdeed hcall) hfinal
  cases hdeed with
  | @openFile _ flags mode id middle hopening =>
    have hopened : (middle.modifyNode id opened).Refines _ :=
      (h.of_opening hsteady hopening).of_contents
        (fun other ↦ content?_modifyNode opened other fun _ ↦ rfl) rfl rfl
    have hfile : ((middle.modifyNode id opened).addHandle env.box
        (.file id (flags &&& (Files.read ||| Files.write)))).fileOf env.box = some id := by
      rw [fileOf, State.addHandle, get_insert, if_pos rfl]
      rfl
    rw [Reference.follow, hfile]
    exact hopened.of_contents (fun _ ↦ rfl) rfl rfl
  | @writeAt file off data id _ _ _ _ hhandle hnode hbody hedited =>
    rw [Reference.follow, fileOf, handles_changed, hhandle]
    exact h.rewrite hsteady (.changed hnode hbody _ hedited) hedited.bytes_eq
  | @setSize file size id _ _ _ _ hhandle hnode hbody hedited =>
    rw [Reference.follow, fileOf, handles_changed, hhandle]
    exact h.rewrite hsteady (.changed hnode hbody _ hedited) hedited.bytes_eq
  | @mapShared _ off len _ id _ c n b hhandle hc _ _ hpinned _ _ _ =>
    have hmapped := h.mapShared hsteady off len n hc hpinned
    rw [Reference.follow, fileOf]
    change State.Refines _ (ref.withWindow _ ((s.handles[_]?.bind Handle.node?).map _))
    rw [hhandle]
    exact hmapped
  | mapPrivate _ _ _ _ _ => exact h.put _ (fun _ _ hshared ↦ by cases hshared) fun _ _ ↦ rfl
  | storeShared hmapping _ hc _ _ => exact h.storeShared hsteady _ hmapping hc
  | storePrivate hmapping =>
    simp only [Reference.follow, h.copies _ _ hmapping]
    exact h.keep (.put hmapping (by simp) fun _ _ ↦ ⟨_, rfl⟩) hfinal
  | _ => first | exact hcall.elim | exact (hcall.not_has ‹_›).elim

/-! ## Where pages are -/

/-- The pages of the mapped files of `s` are where they were. -/
def Anchored (s s' : State) : Prop :=
  ∀ id node before after, s.nodes[id]? = some node → 0 < node.maps → s.core.content? id = some before →
    s'.core.content? id = some after → after.pages? = before.pages?

theorem Anchored.rewrite {j : ℕ} {old new : Content} (hnew : Rewritten s s' j old new) : s.Anchored s' := by
  intro id node before after hnode hmaps hold hafter
  rw [hnew.after] at hafter
  split at hafter
  · rename_i hj
    subst hj
    rw [hnew.before, some.injEq] at hold
    rw [some.injEq] at hafter
    rw [← hold, ← hafter]
    exact hnew.pages node hnode hmaps
  · rw [hold, some.injEq] at hafter
    rw [hafter]

theorem Anchored.of_contents
    (hcontents : ∀ id c, s'.core.content? id = some c → s.core.content? id = some c) :
    s.Anchored s' := by
  intro id node old new _ _ hold hnew
  rw [hcontents id new hnew, some.injEq] at hold
  rw [hold]

theorem Anchored.of_opening (hs : s.core.Sound none) {flags mode : UInt32}
    (hopening : Opening env s flags mode id middle) : s.Anchored middle := by
  cases hopening with
  | found _ _ => exact .of_contents fun _ _ h ↦ h
  | truncated hnode hbody _ hedited => exact .rewrite (.changed hnode hbody false hedited)
  | created _ =>
    intro other node old new _ _ hold hnew
    rw [content?_created, if_neg (lt_nextId hs hold).ne', hold, some.injEq] at hnew
    rw [hnew]

/-- No call moves the pages of a file that is mapped. -/
theorem Anchored.of_deed (hsteady : s.Steady) (hrefines : s.Refines ref)
    (hdeed : Deed env s call reply s') : s.Anchored s' := by
  by_cases hcall : call.Edits
  swap
  · exact .of_contents (Keeps.of_deed hdeed hcall).contents
  cases hdeed with
  | @openFile _ flags mode id middle hopening =>
    have hcontents (other : ℕ) : ((middle.modifyNode id opened).addHandle env.box
        (.file id (flags &&& (Files.read ||| Files.write)))).core.content? other =
          middle.core.content? other :=
      content?_modifyNode opened other fun _ ↦ rfl
    intro other node old new hnode hmaps hold hnew
    rw [hcontents] at hnew
    exact Anchored.of_opening hsteady.sound hopening other node old new hnode hmaps hold hnew
  | writeAt _ hnode hbody hedited => exact .rewrite (.changed hnode hbody _ hedited)
  | setSize _ hnode hbody hedited => exact .rewrite (.changed hnode hbody _ hedited)
  | @mapShared _ off len _ id _ c n b _ hc _ _ hpinned _ _ _ =>
    have hcontents (other : ℕ) : ((Mappings.Record.put (b.base + off, len) (.shared id (n + 1))
        (s.modifyNode id (withContent (.pinned b)))).modifyNode id mapped).core.content? other =
          (s.modifyNode id (withContent (.pinned b))).core.content? other :=
      content?_modifyNode mapped other fun _ ↦ rfl
    intro other node old new hnode hmaps hold hnew
    rw [hcontents] at hnew
    exact Anchored.rewrite (.pinned hrefines hsteady hc hpinned) other node old new hnode hmaps hold hnew
  | mapPrivate _ _ _ _ _ => exact .of_contents fun _ _ h ↦ h
  | storeShared _ _ hc _ _ => exact .rewrite (.stored hc _ _)
  | storePrivate _ => exact .of_contents fun _ _ h ↦ h
  | _ => first | exact hcall.elim | exact (hcall.not_has ‹_›).elim

/-! ## Runs -/

theorem refines_first : first.Refines Reference.empty where
  files := by
    intro id c hc
    rw [content?_first] at hc
    cases hc
  fresh := fun _ _ ↦ rfl
  shared := by
    intro addr len id n hmapping
    rw [show first.mappings = ∅ from rfl] at hmapping
    simp at hmapping
  copies := fun _ _ _ ↦ rfl

/-- A reachable state, with a reference that holds what its files hold. -/
def Followed (pair : State × Reference) : Prop := system.Reachable pair.1 ∧ pair.1.Refines pair.2

theorem followed_step {before next : State × Reference} (h : Followed before)
    (hstep : tracked.step before next) :
    Followed next := by
  obtain ⟨hreach, hrefines⟩ := h
  have hsteady := steady_of_reachable hreach
  obtain ⟨env, call, honest, htrusted, hnext⟩ := hstep
  have hafter : system.Reachable (after (exec env call) before.1) :=
    hreach.of_step ⟨env, call, honest, htrusted, by rw [hsteady.acquire_eq]⟩
  rcases exec_cases hsteady.ready honest htrusted with ⟨reply, s', hrun, hdeed⟩ | ⟨error, s', hrun, hfinal⟩
  · rw [hrun] at hnext
    subst hnext
    rw [after_of_ok hrun] at hafter
    exact ⟨hafter, hrefines.of_deed hsteady hdeed (steady_of_reachable hafter).sound⟩
  · rw [hrun] at hnext
    subst hnext
    rw [after_of_error hrun] at hafter
    refine ⟨hafter, ?_⟩
    rcases hfinal with rfl | ⟨file, mode, wait, _, hgave⟩
    · exact hrefines
    · have hcore := GaveUp.core_eq hgave
      exact hrefines.of_contents (fun id ↦ by rw [hcore]) (congrArg Core.mappings hcore)
        (congrArg Core.nextId hcore)

/-- The reference follows a whole run. -/
theorem followed_of_tracked {pair : State × Reference} (h : tracked.Reachable pair) : Followed pair := by
  refine System.invariant (fun start hstart ↦ ?_) (fun old next hold hstep ↦ followed_step hold hstep) h
  rw [show start = (first, Reference.empty) from hstart]
  exact ⟨.of_start rfl, refines_first⟩

/-- What a private mapping of `length` bytes at `offset` of a file of these bytes holds: the bytes
of the file, and zeros up to the end of its last page. -/
def windowed (bytes : Bytes) (offset length : ℕ) : Bytes :=
  let window := (bytes.drop offset).take length
  window ++ List.replicate (nextMultipleOfPage length - window.length) 0

theorem body_of_content? (hnode : s.nodes[id]? = some node)
    (hc : s.core.content? id = some c) : node.body = .file c := by
  obtain ⟨x, hx, hbody⟩ := exists_node_of_content? hc
  rw [hnode, some.injEq] at hx
  rw [hx, hbody]

theorem anchored_of_step (hsteady : s.Steady) (hrefines : s.Refines ref) {new : Reference}
    (hstep : tracked.step (s, ref) (s', new)) : s.Anchored s' := by
  obtain ⟨env, call, honest, htrusted, hnext⟩ := hstep
  rcases exec_cases hsteady.ready honest htrusted with ⟨reply, next, hrun, hdeed⟩
    | ⟨error, next, hrun, hfinal⟩
  · simp only [hrun, Prod.mk.injEq] at hnext
    rw [hnext.1]
    exact .of_deed hsteady hrefines hdeed
  · simp only [hrun, Prod.mk.injEq] at hnext
    rw [hnext.1]
    refine .of_contents fun id c hc ↦ ?_
    rcases hfinal with rfl | ⟨file, mode, wait, _, hgave⟩
    · exact hc
    · rwa [GaveUp.core_eq hgave] at hc

theorem Refines.read (h : s.Refines ref) (hsteady : s.Steady) {file off cap : ℕ} {data : Bytes}
    (hdeed : Deed env s (.readAt file off cap) (.bytes data) s') :
    ∃ id, s.fileOf file = some id ∧ data = ((ref.files id).drop off).take cap := by
  cases hdeed with
  | quiet hhas => exact hhas.elim
  | locks hhas _ _ => exact hhas.elim
  | @readAt _ _ _ id _ c hhandle hc =>
    refine ⟨id, by rw [fileOf, hhandle]; rfl, ?_⟩
    rw [h.files id c hc, Content.read_eq (hsteady.sound.memory.content_valid id c hc)]

theorem Refines.copy (h : s.Refines ref) (hsteady : s.Steady) {file off len addr : ℕ} {access : UInt32}
    (hdeed : Deed env s (.map file off len access false) (.mapped addr) s') :
    ∃ id, s.fileOf file = some id ∧
      s'.mappings[(addr, len)]? = some (.privateCopy (windowed (ref.files id) off len)) := by
  cases hdeed with
  | quiet hhas => exact hhas.elim
  | locks hhas _ _ => exact hhas.elim
  | @mapPrivate _ _ _ _ id _ c _ hhandle hc _ _ _ =>
    refine ⟨id, by rw [fileOf, hhandle]; rfl, ?_⟩
    rw [Mappings.Record.put, get_insert, if_pos rfl, Mappings.copyOf, windowed, h.files id c hc,
      Content.read_eq (hsteady.sound.memory.content_valid id c hc)]

/-- In every state of a run the files hold what the reference holds, and reads and new private
mappings return it. Pinned files have whole pages that hold them, which stay where they are while
the file is mapped and which shared ranges stay inside. -/
theorem contents_of_tracked (hreach : tracked.Reachable (s, ref)) :
    (∀ (id : ℕ) (node : Node) (c : Content), s.nodes[id]? = some node → node.body = .file c →
      c.bytes = ref.files id ∧ c.len = (ref.files id).length) ∧
    (∀ env file off capacity data s', env.Honest s → (Call.readAt file off capacity).Trusted s →
      exec env (.readAt file off capacity) s = .ok (.bytes data) s' →
        ∃ id, s.fileOf file = some id ∧ data = ((ref.files id).drop off).take capacity) ∧
    (∀ env file off len access addr s', env.Honest s → (Call.map file off len access false).Trusted s →
      exec env (.map file off len access false) s = .ok (.mapped addr) s' → ∃ id, s.fileOf file = some id ∧
          s'.mappings[(addr, len)]? = some (.privateCopy (windowed (ref.files id) off len))) ∧
    (∀ (id : ℕ) (node : Node) (b : Pinned), s.nodes[id]? = some node → node.body = .file (.pinned b) →
      b.size ≤ b.capacity ∧ 0 < b.capacity ∧ 4096 ∣ b.capacity) ∧
    (∀ (id : ℕ) (node : Node), s.nodes[id]? = some node → 0 < node.maps → ∃ b, node.body =
      .file (.pinned b) ∧
        ∀ s' after, tracked.step (s, ref) (s', after) → ∀ (next : Node), s'.nodes[id]? = some next →
          0 < next.maps →
            ∃ kept, next.body = .file (.pinned kept) ∧ kept.base = b.base) ∧
    (∀ (addr len id count : ℕ), s.mappings[(addr, len)]? = some (.shared id count) →
      ∃ (node : Node) (b : Pinned), s.nodes[id]? = some node ∧ node.body = .file (.pinned b) ∧
        b.base ≤ addr ∧ addr + len ≤ b.base + b.capacity) := by
  obtain ⟨hsystem, hrefines⟩ := followed_of_tracked hreach
  have hsteady := steady_of_reachable hsystem
  refine ⟨?_, ?_, ?_, ?_, ?_, ?_⟩
  · intro id node c hnode hbody
    have hcontent := content?_of_node hnode hbody
    rw [hrefines.files id c hcontent,
      Content.length_bytes (hsteady.sound.memory.content_valid id c hcontent)]
    exact ⟨rfl, rfl⟩
  · intro env file off capacity data s' honest htrusted hrun
    exact hrefines.read hsteady (hsteady.deed_of_ok honest htrusted hrun)
  · intro env file off len access addr s' honest htrusted hrun
    exact hrefines.copy hsteady (hsteady.deed_of_ok honest htrusted hrun)
  · intro id node b hnode hbody
    have hvalid :=
      (hsteady.sound.memory.content_valid id _ (content?_of_node hnode hbody)).pages_valid b rfl
    exact ⟨hvalid.size_le, hvalid.capacity_pos, hvalid.page_dvd⟩
  · intro id node hnode hmaps
    obtain ⟨b, hpages⟩ := hrefines.pinned hsteady hnode hmaps
    refine ⟨b, body_of_content? hnode hpages, fun s' after hstep next hnext hheld ↦ ?_⟩
    obtain ⟨hfinal, hafter⟩ := followed_step ⟨hsystem, hrefines⟩ hstep
    obtain ⟨kept, hkept⟩ := hafter.pinned (steady_of_reachable hfinal) hnext hheld
    have hsame := anchored_of_step hsteady hrefines hstep id node _ _ hnode hmaps hpages hkept
    exact ⟨kept, body_of_content? hnext hkept, congrArg Prod.fst (some.inj hsame)⟩
  · intro addr len id count hmapping
    obtain ⟨base, capacity, hblock, hbase, hend, _⟩ :=
      hsteady.sound.memory.shared_inside addr len id count hmapping
    obtain ⟨b, _, hcontent, _⟩ := hrefines.shared addr len id count hmapping
    obtain ⟨node, hnode, hbody⟩ := exists_node_of_content? hcontent
    rw [Core.block, hcontent] at hblock
    cases hblock
    exact ⟨node, b, hnode, hbody, hbase, hend⟩

/-! A file that is created and written past its end. -/

def creating : Call := .openFile [slash, 97] (Files.read ||| Files.write ||| Files.create) 0

def filling : Call := .writeAt 8 2 [7]

def fileOpen : State × Reference :=
  let s := after (exec (granting 8) creating) first
  (s, Reference.empty.follow s.fileOf creating (.handle 8))

def fileWritten : State × Reference :=
  let s := after (exec (granting 16) filling) fileOpen.1
  (s, fileOpen.2.follow s.fileOf filling (.count 1))

theorem tracked_fileWritten : tracked.Reachable fileWritten := by
  have hcreating := allowed_of_callable (show callable 8 creating first from rfl)
  have hfilling := allowed_of_callable (show callable 16 filling fileOpen.1 from rfl)
  have hopen : tracked.Reachable fileOpen :=
    .of_step (.of_start rfl) ⟨granting 8, creating, hcreating.1, hcreating.2, rfl⟩
  exact hopen.of_step ⟨granting 16, filling, hfilling.1, hfilling.2, rfl⟩

theorem contents_of_tracked_written :
    exec (granting 16) (.readAt 8 0 8) fileWritten.1 = .ok (.bytes [0, 0, 7]) fileWritten.1 ∧
      ∃ id, fileWritten.1.fileOf 8 = some id ∧ [0, 0, 7] = ((fileWritten.2.files id).drop 0).take 8 := by
  have hallowed := allowed_of_callable (show callable 16 (.readAt 8 0 8) fileWritten.1 from rfl)
  exact ⟨rfl, (contents_of_tracked tracked_fileWritten).2.1 (granting 16) 8 0 8 [0, 0, 7] fileWritten.1
    hallowed.1 hallowed.2 rfl⟩

end State

end DotnetPal.Memfs
