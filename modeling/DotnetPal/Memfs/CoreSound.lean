import DotnetPal.Memfs.CoreTree

/-!
# The invariant of the core

`Core.Sound` is what holds between any two calls: the directories are a tree, reference counts
are exact and keep exactly the nodes that something refers to, the counter of used bytes is the
sum of the lengths, and the memory of files and mappings does not overlap. Between a node's
loss of a reference and the look at whether it goes, the node is loose. Every step of the core
keeps the invariant.
-/

open Std

namespace DotnetPal.Memfs

open Hierarchy DirectoryTree OrderedMap

attribute [local instance] lexOrd

/-- How many of the times a range was handed out are on file `id`. -/
def Mapped.countOn (id : ℕ) : Mapped → ℕ
  | .shared node count => if node = id then count else 0
  | .privateCopy _ => 0

@[simp]
theorem Mapped.countOn_self (id n : ℕ) : (Mapped.shared id n).countOn id = n := by
  simp [Mapped.countOn]

namespace Core

/-- The open file handles on a node. -/
def handlesOn (handles : ExtTreeMap ℕ (Option ℕ)) (id : ℕ) : ℕ :=
  total (fun _ node ↦ if node = some id then 1 else 0) handles

/-- The times shared ranges of a file are handed out. -/
def mappingsOn (mappings : ExtTreeMap (ℕ × ℕ) Mapped) (id : ℕ) : ℕ :=
  total (fun _ mapped ↦ mapped.countOn id) mappings

/-- Handles and mappings are counted exactly, and are of files. -/
structure Life (core : Core) : Prop where
  opens_exact : ∀ (id : ℕ) (part : FilePart), core.files[id]? = some part →
    part.opens = handlesOn core.handles id
  maps_exact : ∀ (id : ℕ) (part : FilePart), core.files[id]? = some part →
    part.maps = mappingsOn core.mappings id
  handle_file : ∀ (addr id : ℕ), core.handles[addr]? = some (some id) → (core.content? id).isSome
  mapping_file : ∀ (key : ℕ × ℕ) (id count : ℕ), core.mappings[key]? = some (.shared id count) →
    0 < count ∧ (core.content? id).isSome

/-- The used bytes are the lengths of all files in the table. -/
def Accounted (core : Core) : Prop := core.used = total (fun _ part ↦ part.size) core.files

/-- Contents are valid, shared ranges lie in the pages of their file, and no two blocks overlap. -/
structure Memory (core : Core) : Prop where
  content_valid : ∀ id content, core.content? id = some content → content.Valid
  shared_inside : ∀ (addr length id count : ℕ),
    core.mappings[(addr, length)]? = some (.shared id count) →
    ∃ base capacity, core.block (.node id) = some (base, capacity) ∧ base ≤ addr ∧
      addr + length ≤ base + capacity ∧ 0 < length
  copies : ∀ (addr length : ℕ) (memory : Bytes), core.mappings[(addr, length)]? = some (.privateCopy memory) →
    0 < length ∧ memory.length = nextMultipleOfPage length
  blocks_apart : ∀ first second left right, first ≠ second → core.block first = some left →
    core.block second = some right → Apart left right

/-- What holds between calls; `loose` is a node that just lost a reference. -/
structure Sound (loose : Option ℕ) (core : Core) : Prop where
  tree : Tree root ValidName loose core.shapes
  below : ∀ (id : ℕ) (shape : Shape ℕ Bytes compare), core.shapes[id]? = some shape → id < core.nextId
  working_below : core.working < core.nextId
  working_directory : ∀ shape, core.shapes[core.working]? = some shape →
    (core.parent? core.working).isSome
  held : ∀ (id : ℕ) (kept : Kept), core.nodes[id]? = some kept →
    id = root ∨ loose = some id ∨ 0 < kept.links + kept.opens + kept.maps
  life : core.Life
  accounted : core.Accounted
  memory : core.Memory

variable {core next : Core} {id : ℕ}

theorem content?_eq_some_iff {c : Content} :
    core.content? id = some c ↔ ∃ kept, core.nodes[id]? = some kept ∧ kept.body = .file c := by
  unfold content?
  rw [get_files]
  cases hkept : core.nodes[id]? with
  | none => simp
  | some kept => cases hbody : kept.body <;> simp [Kept.filePart, Body.content?, hbody]

/-! ## What only the names see, and what only the files see -/

theorem Life.congr (life : core.Life) (hfiles : next.files = core.files)
    (hhandles : next.handles = core.handles) (hmappings : next.mappings = core.mappings) : next.Life := by
  have hc : next.content? = core.content? := by
    funext id
    simp only [content?, hfiles]
  constructor
  · rw [hfiles, hhandles]
    exact life.opens_exact
  · rw [hfiles, hmappings]
    exact life.maps_exact
  · rw [hhandles, hc]
    exact life.handle_file
  · rw [hmappings, hc]
    exact life.mapping_file

/-- Counts stay exact where they move with what they count. -/
theorem Life.recount (life : core.Life)
    (hparts : ∀ (id : ℕ) (part : FilePart), next.files[id]? = some part →
      ∃ old, core.files[id]? = some old ∧
        part.opens + handlesOn core.handles id = old.opens + handlesOn next.handles id ∧
        part.maps + mappingsOn core.mappings id = old.maps + mappingsOn next.mappings id)
    (hhandles : ∀ (addr id : ℕ), next.handles[addr]? = some (some id) → (next.content? id).isSome)
    (hmappings : ∀ (key : ℕ × ℕ) (id n : ℕ), next.mappings[key]? = some (.shared id n) →
      0 < n ∧ (next.content? id).isSome) : next.Life := by
  refine ⟨?_, ?_, hhandles, hmappings⟩
  · intro id part h
    obtain ⟨old, hold, hopens, _⟩ := hparts id part h
    have hexact := life.opens_exact id old hold
    omega
  · intro id part h
    obtain ⟨old, hold, _, hmaps⟩ := hparts id part h
    have hexact := life.maps_exact id old hold
    omega

/-- Memory is kept where no block and no mapping is new and no mapped file loses its pages. -/
theorem Memory.mono (memory : core.Memory) (hvalid : ∀ id c, next.content? id = some c → c.Valid)
    (hblock : ∀ id block, next.block (.node id) = some block → core.block (.node id) = some block)
    (hshared : ∀ (key : ℕ × ℕ) (id n : ℕ), next.mappings[key]? = some (.shared id n) →
      next.block (.node id) = core.block (.node id) ∧ ∃ times, core.mappings[key]? =
        some (.shared id times))
    (hcopy : ∀ (key : ℕ × ℕ) (bytes : Bytes), next.mappings[key]? = some (.privateCopy bytes) →
      ∃ old : Bytes, core.mappings[key]? = some (.privateCopy old) ∧ bytes.length = old.length) :
    next.Memory := by
  have hall : ∀ owner x, next.block owner = some x → core.block owner = some x := by
    intro owner x h
    cases owner with
    | node id => exact hblock id x h
    | copy key =>
      unfold block at h ⊢
      dsimp only at h ⊢
      split at h
      · rename_i bytes hbytes
        obtain ⟨old, hold, _⟩ := hcopy key bytes hbytes
        rw [hold]
        exact h
      · cases h
  refine ⟨hvalid, ?_, ?_, ?_⟩
  · intro addr length id n h
    obtain ⟨hsame, times, htimes⟩ := hshared _ _ _ h
    rw [hsame]
    exact memory.shared_inside addr length id times htimes
  · intro addr length bytes h
    obtain ⟨old, hold, hlen⟩ := hcopy _ _ h
    rw [hlen]
    exact memory.copies addr length old hold
  · intro a b left right hne hleft hright
    exact memory.blocks_apart a b left right hne (hall _ _ hleft) (hall _ _ hright)

/-- A change of neither contents nor mappings. -/
theorem Memory.congr (memory : core.Memory) (hc : next.content? = core.content?)
    (hmappings : next.mappings = core.mappings) : next.Memory := by
  have hblock : ∀ id, next.block (.node id) = core.block (.node id) := by
    intro id
    simp only [block, hc]
  refine memory.mono ?_ (fun id x h ↦ by rwa [hblock] at h) ?_ ?_
  · rw [hc]
    exact memory.content_valid
  · intro key id n h
    rw [hmappings] at h
    exact ⟨hblock id, n, h⟩
  · intro key bytes h
    rw [hmappings] at h
    exact ⟨bytes, h, rfl⟩

theorem content?_congr (h : next.files = core.files) : next.content? = core.content? := by
  funext id
  simp only [content?, h]

/-- A change of names. -/
theorem Sound.of_names {loose : Option ℕ} (hs : core.Sound none) (hfiles : next.files = core.files)
    (hhandles : next.handles = core.handles) (hmappings : next.mappings = core.mappings)
    (hused : next.used = core.used) (hnextId : next.nextId = core.nextId)
    (hworking : next.working = core.working) (htree : Tree root ValidName loose next.shapes)
    (hlive : ∀ (id : ℕ) (shape : Shape ℕ Bytes compare), next.shapes[id]? = some shape →
      ∃ old, core.shapes[id]? = some old)
    (hkind : ∀ id, (core.parent? id).isSome → (next.parent? id).isSome)
    (hheld : ∀ (id : ℕ) (kept : Kept), next.nodes[id]? = some kept →
      id = root ∨ loose = some id ∨ 0 < kept.links + kept.opens + kept.maps) : next.Sound loose where
  tree := htree
  below id shape h := by
    obtain ⟨old, hold⟩ := hlive id shape h
    rw [hnextId]
    exact hs.below id old hold
  working_below := by
    rw [hnextId, hworking]
    exact hs.working_below
  working_directory shape h := by
    rw [hworking] at h ⊢
    obtain ⟨old, hold⟩ := hlive _ shape h
    exact hkind _ (hs.working_directory old hold)
  held := hheld
  life := hs.life.congr hfiles hhandles hmappings
  accounted := by
    unfold Accounted
    rw [hused, hfiles]
    exact hs.accounted
  memory := hs.memory.congr (content?_congr hfiles) hmappings

/-- A change of a file. -/
theorem Sound.of_files {loose : Option ℕ} (hs : core.Sound none) (hshapes : next.shapes = core.shapes)
    (hnextId : next.nextId = core.nextId) (hworking : next.working = core.working)
    (hloose : ∀ id, loose = some id → core.parent? id = none)
    (hheld : ∀ (id : ℕ) (kept : Kept), next.nodes[id]? = some kept →
      id = root ∨ loose = some id ∨ 0 < kept.links + kept.opens + kept.maps)
    (hlife : next.Life) (haccounted : next.Accounted) (hmemory : next.Memory) : next.Sound loose where
  tree := by
    rw [hshapes]
    cases loose with
    | none => exact hs.tree
    | some id => exact hs.tree.loosen (hloose id rfl)
  below := by
    rw [hshapes, hnextId]
    exact hs.below
  working_below := by
    rw [hnextId, hworking]
    exact hs.working_below
  working_directory := by
    unfold parent?
    rw [hshapes, hworking]
    exact hs.working_directory
  held := hheld
  life := hlife
  accounted := haccounted
  memory := hmemory

/-! ## A node that nothing refers to goes -/

variable {part : FilePart}

theorem Life.opens_of_handle (life : core.Life) {addr : ℕ}
    (hpart : core.files[id]? = some part) (h : core.handles[addr]? = some (some id)) : 0 < part.opens := by
  rw [life.opens_exact id part hpart]
  have hweight := weight_le_total (fun _ (node : Option ℕ) ↦ if node = some id then 1 else 0) core.handles h
  simp only [if_true] at hweight
  exact hweight

theorem Life.maps_of_mapping (life : core.Life) {key : ℕ × ℕ} {n : ℕ}
    (hpart : core.files[id]? = some part) (h : core.mappings[key]? = some (.shared id n)) :
    0 < part.maps := by
  rw [life.maps_exact id part hpart]
  have hweight : (Mapped.shared id n).countOn id ≤ _ :=
    weight_le_total (fun _ (mapped : Mapped) ↦ mapped.countOn id) core.mappings h
  have hn := (life.mapping_file key id n h).1
  rw [Mapped.countOn_self] at hweight
  exact Nat.lt_of_lt_of_le hn hweight

/-- Nothing holds a handle or a mapping of what is no file. -/
theorem Life.unheld (life : core.Life) (hpart : core.files[id]? = some part)
    (h : core.content? id = none) : part.opens = 0 ∧ part.maps = 0 := by
  constructor
  · rw [life.opens_exact id part hpart, handlesOn, total_eq_zero_iff]
    intro addr node hnode
    have hne : node ≠ some id := by
      rintro rfl
      simpa [h] using life.handle_file addr id hnode
    simp [hne]
  · rw [life.maps_exact id part hpart, mappingsOn, total_eq_zero_iff]
    intro key mapped hmapped
    cases mapped with
    | privateCopy memory => rfl
    | shared node n =>
      have hne : node ≠ id := by
        rintro rfl
        simpa [h] using (life.mapping_file key node n hmapped).2
      simp [Mapped.countOn, hne]

theorem reaped_of_held {kept : Kept} (hkept : core.nodes[id]? = some kept)
    (h : 0 < kept.links + kept.opens + kept.maps) : core.reaped id = core := by
  unfold reaped
  rw [hkept]
  dsimp only
  rw [if_neg (by omega)]

section Freed

variable {kept : Kept} (hkept : core.nodes[id]? = some kept)
  (hzero : kept.links = 0 ∧ kept.opens = 0 ∧ kept.maps = 0)

include hkept hzero

theorem reaped_of_free : core.reaped id =
      { core with nodes := core.nodes.erase id, used := core.used - kept.filePart.size } := by
  unfold reaped
  rw [hkept]
  dsimp only
  rw [if_pos hzero]

theorem shapes_reaped : (core.reaped id).shapes = core.shapes.erase id := by
  rw [reaped_of_free hkept hzero]
  exact map_erase _ _ _

theorem files_reaped : (core.reaped id).files = core.files.erase id := by
  rw [reaped_of_free hkept hzero]
  exact map_erase _ _ _

theorem content?_reaped (j : ℕ) :
    (core.reaped id).content? j = if id = j then none else core.content? j := by
  unfold content?
  rw [files_reaped hkept hzero, get_erase]
  split <;> rfl

theorem Life.reap (life : core.Life) : (core.reaped id).Life := by
  have hpart : core.files[id]? = some kept.filePart := by simp [get_files, hkept]
  have hfiles := files_reaped hkept hzero
  have hc := content?_reaped hkept hzero
  have hhandles : (core.reaped id).handles = core.handles := by rw [reaped_of_free hkept hzero]
  have hmappings : (core.reaped id).mappings = core.mappings := by rw [reaped_of_free hkept hzero]
  constructor
  · intro j part h
    rw [hfiles] at h
    rw [hhandles]
    exact life.opens_exact j part (get_of_erase h).2
  · intro j part h
    rw [hfiles] at h
    rw [hmappings]
    exact life.maps_exact j part (get_of_erase h).2
  · intro addr j h
    rw [hhandles] at h
    rw [hc, if_neg]
    · exact life.handle_file addr j h
    · rintro rfl
      have hopens : 0 < kept.opens := life.opens_of_handle hpart h
      omega
  · intro key j n h
    rw [hmappings] at h
    rw [hc, if_neg]
    · exact life.mapping_file key j n h
    · rintro rfl
      have hmaps : 0 < kept.maps := life.maps_of_mapping hpart h
      omega

theorem Accounted.reap (accounted : core.Accounted) : (core.reaped id).Accounted := by
  have hpart : core.files[id]? = some kept.filePart := by simp [get_files, hkept]
  have hmove := total_erase_add (fun _ (part : FilePart) ↦ part.size) core.files hpart
  unfold Accounted at accounted ⊢
  rw [files_reaped hkept hzero, reaped_of_free hkept hzero]
  dsimp only
  omega

theorem Memory.reap (memory : core.Memory) (life : core.Life) : (core.reaped id).Memory := by
  have hpart : core.files[id]? = some kept.filePart := by simp [get_files, hkept]
  have hc := content?_reaped hkept hzero
  have hmappings : (core.reaped id).mappings = core.mappings := by rw [reaped_of_free hkept hzero]
  refine memory.mono ?_ ?_ ?_ ?_
  · intro j c h
    rw [hc] at h
    split at h
    · cases h
    · exact memory.content_valid j c h
  · intro j x h
    simp only [block, hc] at h ⊢
    split at h
    · cases h
    · exact h
  · intro key j n h
    rw [hmappings] at h
    refine ⟨?_, n, h⟩
    simp only [block, hc]
    rw [if_neg]
    rintro rfl
    have hmaps : 0 < kept.maps := life.maps_of_mapping hpart h
    omega
  · intro key bytes h
    rw [hmappings] at h
    exact ⟨bytes, h, rfl⟩

end Freed

/-- The loose node goes or stays, and the invariant is whole again. -/
theorem Sound.reap (hs : core.Sound (some id)) (hempty : ∀ name, core.child? id name = none) :
    (core.reaped id).Sound none := by
  cases hkept : core.nodes[id]? with
  | none =>
    have hsame : core.reaped id = core := by simp [reaped, hkept]
    have hnone : core.parent? id = none := by simp [parent?, parentOf, get_shapes, hkept]
    rw [hsame]
    refine ⟨hs.tree.settle (.inl hnone), hs.below, hs.working_below, hs.working_directory,
      ?_, hs.life, hs.accounted, hs.memory⟩
    intro j x h
    rcases hs.held j x h with hroot | hloose | hpos
    · exact .inl hroot
    · cases hloose
      simp [hkept] at h
    · exact .inr (.inr hpos)
  | some kept =>
    have hshape : core.shapes[id]? = some kept.shape := by simp [get_shapes, hkept]
    have hpart : core.files[id]? = some kept.filePart := by simp [get_files, hkept]
    by_cases hzero : kept.links = 0 ∧ kept.opens = 0 ∧ kept.maps = 0
    · have hshapes := shapes_reaped hkept hzero
      have he : ∀ name, kept.shape.entry name = none := by
        intro name
        simpa [child?, entryOf, hshape] using hempty name
      have hnext : (core.reaped id).nextId = core.nextId := by rw [reaped_of_free hkept hzero]
      have hworking : (core.reaped id).working = core.working := by rw [reaped_of_free hkept hzero]
      refine ⟨?_, ?_, ?_, ?_, ?_, hs.life.reap hkept hzero, hs.accounted.reap hkept hzero,
        hs.memory.reap hkept hzero hs.life⟩
      · rw [hshapes]
        exact hs.tree.leave hshape hzero.1 he (.inr rfl)
      · intro j shape h
        rw [hshapes] at h
        rw [hnext]
        exact hs.below j shape (get_of_erase h).2
      · rw [hnext, hworking]
        exact hs.working_below
      · intro shape h
        rw [hworking, hshapes] at h
        rw [hworking]
        obtain ⟨hne, h⟩ := get_of_erase h
        have hparent := hs.working_directory shape h
        simpa [parent?, parentOf, hshapes, get_erase, hne] using hparent
      · intro j x h
        rw [reaped_of_free hkept hzero] at h
        obtain ⟨hne, h⟩ := get_of_erase h
        rcases hs.held j x h with hroot | hloose | hpos
        · exact .inl hroot
        · exact absurd (Option.some.inj hloose) hne
        · exact .inr (.inr hpos)
    · have hpos : 0 < kept.links + kept.opens + kept.maps := by omega
      rw [reaped_of_held hkept hpos]
      -- A directory that nothing names is held by nothing, so what stays is no directory.
      have hsettled : core.parent? id = none ∨ id = root := by
        by_contra hnot
        rw [not_or] at hnot
        obtain ⟨above, habove⟩ := Option.ne_none_iff_exists'.mp hnot.1
        have hsome : (parentOf core.shapes id).isSome := by
          rw [show parentOf core.shapes id = some above from habove]
          rfl
        have hnamings : namings core.shapes id = 0 :=
          namings_eq_zero_iff.mpr (hs.tree.loose_unnamed id rfl hsome)
        have hlinks := hs.tree.links_exact id kept.shape hshape
        rw [hnamings, if_neg hnot.2] at hlinks
        have hc : core.content? id = none := by
          cases hx : core.content? id with
          | none => rfl
          | some c => exact absurd (parent?_of_content? hx) hnot.1
        obtain ⟨hopens, hmaps⟩ := hs.life.unheld hpart hc
        simp only [Kept.shape, Kept.filePart] at hlinks hopens hmaps
        omega
      refine ⟨hs.tree.settle hsettled, hs.below, hs.working_below, hs.working_directory,
        ?_, hs.life, hs.accounted, hs.memory⟩
      intro j x h
      rcases hs.held j x h with hroot | hloose | hj
      · exact .inl hroot
      · cases hloose
        rw [hkept] at h
        cases h
        exact .inr (.inr hpos)
      · exact .inr (.inr hj)

end Core

end DotnetPal.Memfs
