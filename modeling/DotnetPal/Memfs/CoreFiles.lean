import DotnetPal.Memfs.CoreSteps

/-!
# Steps of files, handles and mappings

The steps that leave every name alone, and with them the whole of `Core.Sound.step`.
-/

open Std

namespace DotnetPal.Memfs

open DirectoryTree OrderedMap Kept

attribute [local instance] lexOrd

namespace Core

variable {core next : Core} {id : ℕ}

/-! ## Counting -/

variable {addr : ℕ}

variable {handles : ExtTreeMap ℕ (Option ℕ)}

theorem handlesOn_insert (node : Option ℕ) (h : handles[addr]? = none) (j : ℕ) :
    handlesOn (handles.insert addr node) j = handlesOn handles j + if node = some j then 1 else 0 :=
  total_insert_new _ _ _ h

theorem handlesOn_erase {node : Option ℕ} (h : handles[addr]? = some node) (j : ℕ) :
    handlesOn (handles.erase addr) j + (if node = some j then 1 else 0) = handlesOn handles j :=
  total_erase_add (fun _ x ↦ if x = some j then 1 else 0) _ h

variable {mappings : ExtTreeMap (ℕ × ℕ) Mapped} {key : ℕ × ℕ}

theorem mappingsOn_insert_new (mapped : Mapped) (h : mappings[key]? = none) (j : ℕ) :
    mappingsOn (mappings.insert key mapped) j = mappingsOn mappings j + mapped.countOn j :=
  total_insert_new _ _ _ h

theorem mappingsOn_insert {before : Mapped} (mapped : Mapped) (h : mappings[key]? = some before) (j : ℕ) :
    mappingsOn (mappings.insert key mapped) j + before.countOn j =
      mappingsOn mappings j + mapped.countOn j :=
  total_insert_add (fun _ x ↦ x.countOn j) _ _ h

theorem mappingsOn_erase {before : Mapped} (h : mappings[key]? = some before) (j : ℕ) :
    mappingsOn (mappings.erase key) j + before.countOn j = mappingsOn mappings j :=
  total_erase_add (fun _ x ↦ x.countOn j) _ h

/-! ## A changed file part -/

section Modified

variable {follow : FilePart → FilePart} (hfiles : next.files = core.files.modify id follow)

include hfiles

theorem content?_modified (hc : ∀ part, (follow part).content = part.content) :
    next.content? = core.content? := by
  funext j
  unfold content?
  rw [hfiles, get_modify]
  split
  · cases core.files[j]? <;> simp [hc]
  · rfl

theorem get_modified {j : ℕ} {part : FilePart} (h : next.files[j]? = some part) :
    ∃ before, core.files[j]? = some before ∧ part = if id = j then follow before else before := by
  rw [hfiles] at h
  rcases modify_cases h with ⟨hsame, before, hbefore, hpart⟩ | ⟨hsame, h⟩
  · exact ⟨before, hbefore, by rw [if_pos hsame, hpart]⟩
  · exact ⟨part, h, by rw [if_neg hsame]⟩

theorem Accounted.modified (accounted : core.Accounted) (hused : next.used = core.used)
    (hsize : ∀ part, core.files[id]? = some part → (follow part).size = part.size) : next.Accounted := by
  unfold Accounted
  rw [hused, hfiles, total_modify_same _ _ hsize]
  exact accounted

end Modified

/-! ## Handles -/

variable {c : Content}

variable (hs : core.Sound none)
include hs

theorem Sound.openFile
    (hfree : core.handles[addr]? = none) (hc : core.content? id = some c) :
    (core.opened addr id).Sound none := by
  have hfiles : (core.opened addr id).files = core.files.modify id (FilePart.withOpens (· + 1)) :=
    files_modifyNode fun _ ↦ rfl
  have hcontents := content?_modified hfiles fun _ ↦ rfl
  refine hs.of_files (shapes_modifyNode_same fun _ _ ↦ rfl) rfl rfl (by simp) ?_ ?_ ?_ ?_
  · refine held_modifyNode hs.held_weight fun kept _ ↦ .inr ?_
    simp only [weight, withOpens]
    omega
  · refine hs.life.recount ?_ ?_ ?_
    · intro j part h
      obtain ⟨before, hbefore, rfl⟩ := get_modified hfiles h
      refine ⟨before, hbefore, ?_, ?_⟩
      · have hn := handlesOn_insert (some id) hfree j
        change _ = before.opens + handlesOn (core.handles.insert addr (some id)) j
        by_cases hsame : id = j
        · simp only [hsame, if_true, FilePart.withOpens] at hn ⊢
          omega
        · simp only [hsame, if_false, Option.some.injEq] at hn ⊢
          omega
      · split <;> rfl
    · intro j node h
      rw [hcontents]
      change (core.handles.insert addr (some id))[j]? = _ at h
      rcases insert_cases h with ⟨_, hnew⟩ | ⟨_, h⟩
      · cases hnew
        simp [hc]
      · exact hs.life.handle_file j node h
    · rw [hcontents]
      exact hs.life.mapping_file
  · exact hs.accounted.modified hfiles rfl fun _ _ ↦ rfl
  · exact hs.memory.congr hcontents rfl

/-- A handle goes, and the node it was on is loose. -/
theorem Sound.close
    (hhandle : core.handles[addr]? = some (some id)) : (core.closed addr id).Sound none := by
  obtain ⟨c, hc⟩ := Option.isSome_iff_exists.mp (hs.life.handle_file addr id hhandle)
  have hplain : core.parent? id = none := parent?_of_content? hc
  have hfiles : ((core.withoutHandle addr).modifyNode id (withOpens (· - 1))).files =
      core.files.modify id (FilePart.withOpens (· - 1)) := files_modifyNode fun _ ↦ rfl
  have hshapes : ((core.withoutHandle addr).modifyNode id (withOpens (· - 1))).shapes = core.shapes :=
    shapes_modifyNode_same fun _ _ ↦ rfl
  have hcontents := content?_modified hfiles fun _ ↦ rfl
  refine Sound.reap (hs.of_files hshapes rfl rfl ?_ ?_ ?_ ?_ ?_) ?_
  · rintro j ⟨⟩
    exact hplain
  · refine held_modifyNode (fun j kept h ↦ ?_) fun _ _ ↦ .inl rfl
    rcases hs.held_weight j kept h with hroot | hloose | hpos
    · exact .inl hroot
    · cases hloose
    · exact .inr (.inr hpos)
  · refine hs.life.recount ?_ ?_ ?_
    · intro j part h
      obtain ⟨before, hbefore, rfl⟩ := get_modified hfiles h
      refine ⟨before, hbefore, ?_, ?_⟩
      · have hn := handlesOn_erase hhandle j
        change _ = before.opens + handlesOn (core.handles.erase addr) j
        by_cases hsame : id = j
        · subst hsame
          have hopens := hs.life.opens_of_handle hbefore hhandle
          simp only [if_true, FilePart.withOpens] at hn ⊢
          omega
        · simp only [hsame, if_false, Option.some.injEq] at hn ⊢
          omega
      · split <;> rfl
    · intro j node h
      rw [hcontents]
      change (core.handles.erase addr)[j]? = _ at h
      exact hs.life.handle_file j node (get_of_erase h).2
    · rw [hcontents]
      exact hs.life.mapping_file
  · exact hs.accounted.modified hfiles rfl fun _ _ ↦ rfl
  · exact hs.memory.congr hcontents rfl
  · intro name
    unfold child?
    rw [hshapes]
    exact entryOf_of_parentOf_none hplain name

/-- A handle that is on no file counts for nothing. -/
theorem Sound.box (hfree : core.handles[addr]? = none) :
    (core.withHandle addr none).Sound none := by
  refine hs.of_files rfl rfl rfl (by simp) hs.held ?_ hs.accounted (hs.memory.congr rfl rfl)
  refine hs.life.recount ?_ ?_ hs.life.mapping_file
  · intro j part h
    refine ⟨part, h, ?_, rfl⟩
    have hn := handlesOn_insert none hfree j
    change _ = part.opens + handlesOn (core.handles.insert addr none) j
    rw [hn]
    rfl
  · intro j node h
    change (core.handles.insert addr none)[j]? = _ at h
    rcases insert_cases h with ⟨_, hnone⟩ | ⟨_, h⟩
    · cases hnone
    · exact hs.life.handle_file j node h

theorem Sound.unbox (hhandle : core.handles[addr]? = some none) :
    (core.withoutHandle addr).Sound none := by
  refine hs.of_files rfl rfl rfl (by simp) hs.held ?_ hs.accounted (hs.memory.congr rfl rfl)
  refine hs.life.recount ?_ ?_ hs.life.mapping_file
  · intro j part h
    refine ⟨part, h, ?_, rfl⟩
    have hn := handlesOn_erase hhandle j
    change _ = part.opens + handlesOn (core.handles.erase addr) j
    simp only [reduceCtorEq, if_false, Nat.add_zero] at hn
    rw [hn]
  · intro j node h
    change (core.handles.erase addr)[j]? = _ at h
    exact hs.life.handle_file j node (get_of_erase h).2

omit hs

/-! ## Content -/

/-- A file stays a file when its content changes. -/
theorem shapes_withContent {before after : Content} (h : core.content? id = some before) :
    (core.modifyNode id (withContent after)).shapes = core.shapes := by
  apply shapes_modifyNode_same
  intro kept hkept
  obtain ⟨x, hx, hbody⟩ := content?_eq_some_iff.mp h
  rw [hkept] at hx
  cases hx
  simp [withContent, shape, Body.directory?, hbody]

section Rewritten

variable {before after : Content} {follow : FilePart → FilePart}
  (hfiles : next.files = core.files.modify id follow)
  (hfollow : ∀ part, (follow part).content = some after) (hbefore : core.content? id = some before)

include hfiles hfollow hbefore

theorem content?_rewritten (j : ℕ) :
    next.content? j = if id = j then some after else core.content? j := by
  unfold content? at hbefore ⊢
  rw [hfiles, get_modify]
  split
  · rename_i hsame
    subst hsame
    cases hpart : core.files[id]? with
    | none => simp [hpart] at hbefore
    | some part => simp [hfollow]
  · rfl

theorem content?_isSome_rewritten {j : ℕ} (h : (core.content? j).isSome) : (next.content? j).isSome := by
  rw [content?_rewritten hfiles hfollow hbefore]
  split
  · rfl
  · exact h

theorem Life.rewritten (life : core.Life) (hhandles : next.handles = core.handles)
    (hmappings : next.mappings = core.mappings)
    (hcounts : ∀ part, (follow part).opens = part.opens ∧ (follow part).maps = part.maps) : next.Life := by
  refine life.recount ?_ ?_ ?_
  · intro j part h
    obtain ⟨x, hx, rfl⟩ := get_modified hfiles h
    refine ⟨x, hx, ?_, ?_⟩
    · rw [hhandles]
      split
      · rw [(hcounts x).1]
      · rfl
    · rw [hmappings]
      split
      · rw [(hcounts x).2]
      · rfl
  · intro addr j h
    rw [hhandles] at h
    exact content?_isSome_rewritten hfiles hfollow hbefore (life.handle_file addr j h)
  · intro key j n h
    rw [hmappings] at h
    obtain ⟨hn, hfile⟩ := life.mapping_file key j n h
    exact ⟨hn, content?_isSome_rewritten hfiles hfollow hbefore hfile⟩

/-- A new content that stays in the pages of the old one, or leaves them when nothing is mapped. -/
theorem Memory.rewritten (memory : core.Memory) (hmappings : next.mappings = core.mappings)
    (hvalid : after.Valid) (hpages : after.pages? = none ∨ after.pages? = before.pages?)
    (hmapped : ∀ (key : ℕ × ℕ) (n : ℕ), core.mappings[key]? = some (.shared id n) →
      after.pages? = before.pages?) : next.Memory := by
  have hcontents := content?_rewritten hfiles hfollow hbefore
  refine memory.mono ?_ ?_ ?_ ?_
  · intro j c h
    rw [hcontents] at h
    split at h
    · cases h
      exact hvalid
    · exact memory.content_valid j c h
  · intro j x h
    simp only [block, hcontents] at h ⊢
    split at h
    · rename_i hsame
      subst hsame
      rw [hbefore]
      rcases hpages with hnone | hkept
      · simp [hnone] at h
      · simpa [← hkept] using h
    · exact h
  · intro key j n h
    rw [hmappings] at h
    refine ⟨?_, n, h⟩
    simp only [block, hcontents]
    split
    · rename_i hsame
      subst hsame
      simp [hbefore, hmapped key n h]
    · rfl
  · intro key bytes h
    rw [hmappings] at h
    exact ⟨bytes, h, rfl⟩

end Rewritten

theorem Sound.edit {kept : Kept} {before after : Content} {bytes : Bytes} (hs : core.Sound none)
    (hkept : core.nodes[id]? = some kept) (hbody : kept.body = .file before)
    (hedited : Content.Edited before (core.capacity - core.used) (kept.maps ≠ 0) bytes after) :
    (core.edited id before after).Sound none := by
  have hbefore : core.content? id = some before := content?_eq_some_iff.mpr ⟨kept, hkept, hbody⟩
  have hpart : core.files[id]? = some kept.filePart := by simp [get_files, hkept]
  have hfiles : (core.edited id before after).files = core.files.modify id (FilePart.withContent after) :=
    files_modifyNode fun _ ↦ rfl
  refine hs.of_files (shapes_withContent hbefore) rfl rfl (by simp) ?_ ?_ ?_ ?_
  · exact held_modifyNode hs.held_weight fun _ _ ↦ .inr (Nat.le_refl _)
  · exact hs.life.rewritten hfiles (fun _ ↦ rfl) hbefore rfl rfl fun _ ↦ ⟨rfl, rfl⟩
  · have hmove := total_modify_add (fun _ (part : FilePart) ↦ part.size) core.files
      (FilePart.withContent after) hpart
    have hle := weight_le_total (fun _ (part : FilePart) ↦ part.size) core.files hpart
    have hold : kept.filePart.size = before.len := by simp [FilePart.size, filePart, Body.content?, hbody]
    have hnew : (kept.filePart.withContent after).size = after.len := rfl
    have haccounted : core.used = total (fun _ (part : FilePart) ↦ part.size) core.files :=
      hs.accounted
    unfold Accounted
    rw [hfiles]
    change core.used - before.len + after.len = _
    omega
  · refine hs.memory.rewritten hfiles (fun _ ↦ rfl) hbefore rfl hedited.valid hedited.pages ?_
    intro key n h
    apply hedited.stays
    have hmaps : 0 < kept.maps := hs.life.maps_of_mapping hpart h
    exact decide_eq_true (by omega)

variable {pages : Pinned}

/-- A store into the pages of a file changes no length and moves nothing. -/
theorem Sound.storeShared {v : UInt8} (hs : core.Sound none)
    (hc : core.content? id = some (.pinned pages)) :
    (core.modifyNode id (withContent
      (.pinned { pages with memory := pages.memory.set (addr - pages.base) v }))).Sound none := by
  have hfiles : (core.modifyNode id (withContent
      (.pinned { pages with memory := pages.memory.set (addr - pages.base) v }))).files =
      core.files.modify id (FilePart.withContent
        (.pinned { pages with memory := pages.memory.set (addr - pages.base) v })) :=
    files_modifyNode fun _ ↦ rfl
  have hvalid := hs.memory.content_valid id _ hc
  have hpages := hvalid.pages_valid pages rfl
  refine hs.of_files (shapes_withContent hc) rfl rfl (by simp) ?_ ?_ ?_ ?_
  · exact held_modifyNode hs.held_weight fun _ _ ↦ .inr (Nat.le_refl _)
  · exact hs.life.rewritten hfiles (fun _ ↦ rfl) hc rfl rfl fun _ ↦ ⟨rfl, rfl⟩
  · refine hs.accounted.modified hfiles rfl ?_
    intro part hpart
    have hsame : part.content = some (.pinned pages) := by simpa [content?, hpart] using hc
    simp [FilePart.size, FilePart.withContent, hsame, Content.len]
  · refine hs.memory.rewritten hfiles (fun _ ↦ rfl) hc rfl ?_ (.inr rfl) fun _ _ _ ↦ rfl
    exact Content.valid_pinned hvalid.len_le
      ⟨hpages.capacity_pos, hpages.page_dvd, hpages.size_le, by simpa using hpages.memory_length⟩

/-! ## Mappings -/

theorem not_apart_of_inside {base cap len size : ℕ} (hbase : base ≤ addr)
    (hend : addr + len ≤ base + cap) (hpos : 0 < len) (hsize : len ≤ size) :
    ¬Apart (addr, size) (base, cap) := by
  rintro (h | h) <;> dsimp only at h <;> omega

/-- New pages are at a key that no record has. -/
theorem Sound.new_key (hs : core.Sound none) {base len : ℕ} (hlen : 0 < len)
    (hapart : ∀ owner block, core.block owner = some block → Apart (base, nextMultipleOfPage len) block) :
    core.mappings[(base, len)]? = none := by
  have hsize := le_nextMultipleOfPage len
  cases hx : core.mappings[(base, len)]? with
  | none => rfl
  | some mapped =>
    exfalso
    cases mapped with
    | shared id n =>
      obtain ⟨start, cap, hblock, hstart, hend, _⟩ := hs.memory.shared_inside base len id n hx
      exact not_apart_of_inside hstart hend hlen hsize (hapart _ _ hblock)
    | privateCopy memory =>
      have hblock : core.block (.copy (base, len)) = some (base, nextMultipleOfPage len) := by
        simp [block, hx]
      exact not_apart_of_inside (Nat.le_refl _) (by omega) hlen hsize (hapart _ _ hblock)

variable {memory : Bytes}

theorem Sound.mapPrivate {base len : ℕ} (hs : core.Sound none) (hlen : 0 < len)
    (hmemory : memory.length = nextMultipleOfPage len)
    (hapart : ∀ owner block, core.block owner = some block → Apart (base, nextMultipleOfPage len) block) :
    (core.withMapping (base, len) (.privateCopy memory)).Sound none := by
  have hfree := hs.new_key hlen hapart
  have hget : ∀ key : ℕ × ℕ, (core.withMapping (base, len) (.privateCopy memory)).mappings[key]? =
      if (base, len) = key then some (.privateCopy memory) else core.mappings[key]? :=
    fun key ↦ get_insert _ _ _ _
  have hshared : ∀ (key : ℕ × ℕ) (id n : ℕ),
      (core.withMapping (base, len) (.privateCopy memory)).mappings[key]? = some (.shared id n) →
      core.mappings[key]? = some (.shared id n) := by
    intro key id n h
    rw [hget] at h
    split at h
    · cases h
    · exact h
  refine hs.of_files rfl rfl rfl (by simp) hs.held ?_ hs.accounted ?_
  · refine hs.life.recount ?_ hs.life.handle_file fun key id n h ↦
      hs.life.mapping_file key id n (hshared key id n h)
    intro j part h
    exact ⟨part, h, rfl, by
      change _ = part.maps + mappingsOn (core.mappings.insert (base, len) (.privateCopy memory)) j
      rw [mappingsOn_insert_new _ hfree]
      rfl⟩
  · have hblock : ∀ owner, (core.withMapping (base, len) (.privateCopy memory)).block owner =
        if owner = .copy (base, len) then some (base, nextMultipleOfPage len) else core.block owner := by
      intro owner
      cases owner with
      | node id => rfl
      | copy key =>
        simp only [block, hget, Owner.copy.injEq]
        by_cases hkey : (base, len) = key
        · subst hkey
          simp
        · simp [hkey, Ne.symm hkey]
    refine ⟨hs.memory.content_valid, ?_, ?_, ?_⟩
    · intro addr size id n h
      exact hs.memory.shared_inside addr size id n (hshared _ _ _ h)
    · intro addr size bytes h
      rw [hget] at h
      split at h
      · rename_i hkey
        cases hkey
        cases h
        exact ⟨hlen, hmemory⟩
      · exact hs.memory.copies addr size bytes h
    · intro a b left right hne hleft hright
      rw [hblock] at hleft hright
      split at hleft <;> split at hright
      · rename_i ha hb
        exact absurd (ha.trans hb.symm) hne
      · cases hleft
        exact hapart _ _ hright
      · cases hright
        exact (hapart _ _ hleft).symm
      · exact hs.memory.blocks_apart a b left right hne hleft hright

variable {n : ℕ}

/-- A record that is counted once more, or is new. -/
theorem mappingsOn_counted
    (h : mappings[key]? = none ∧ n = 0 ∨ mappings[key]? = some (Mapped.shared id n)) (j : ℕ) :
    mappingsOn (mappings.insert key (.shared id (n + 1))) j =
      mappingsOn mappings j + if id = j then 1 else 0 := by
  rcases h with ⟨hnone, rfl⟩ | hsome
  · rw [mappingsOn_insert_new _ hnone]
    rfl
  · have hmove := mappingsOn_insert (.shared id (n + 1)) hsome j
    by_cases hsame : id = j <;> simp [Mapped.countOn, hsame] at hmove ⊢ <;> omega

/-- A shared range of a file keeps the memory apart: the file has its pages, or gets new ones. -/
theorem Memory.mapShared {start len : ℕ} {follow : FilePart → FilePart} (memory : core.Memory)
    (hfiles : next.files = core.files.modify id follow)
    (hfollow : ∀ part, (follow part).content = some (.pinned pages))
    (hmappings : next.mappings = core.mappings.insert (pages.base + start, len) (.shared id n))
    (hc : core.content? id = some c)
    (hpages : c = .pinned pages ∨ (c.pages? = none ∧ pages.size = c.len ∧
      ∀ owner block, core.block owner = some block → Apart (pages.base, pages.capacity) block))
    (hvalid : pages.Valid) (hlen : 0 < len) (hend : start + len ≤ pages.capacity) : next.Memory := by
  have hcontents := content?_rewritten hfiles hfollow hc
  have hget : ∀ key : ℕ × ℕ, next.mappings[key]? =
      if (pages.base + start, len) = key then some (.shared id n) else core.mappings[key]? := by
    intro key
    rw [hmappings, get_insert]
  have hnode : ∀ j, next.block (.node j) =
      if id = j then some (pages.base, pages.capacity) else core.block (.node j) := by
    intro j
    simp only [block, hcontents]
    split <;> rfl
  have hcopy : ∀ key x, next.block (.copy key) = some x → core.block (.copy key) = some x := by
    intro key x h
    by_cases hkey : (pages.base + start, len) = key
    · simp [block, hget, hkey] at h
    · simpa [block, hget, hkey] using h
  -- The file's own block is the one it had, or lies apart from every block.
  have hown : core.block (.node id) = some (pages.base, pages.capacity) ∨ core.block (.node id) = none ∧
        ∀ owner block, core.block owner = some block → Apart (pages.base, pages.capacity) block := by
    rcases hpages with rfl | ⟨hnone, _, hapart⟩
    · exact .inl (by simp [block, hc, Content.pages?])
    · exact .inr ⟨by simp [block, hc, hnone], hapart⟩
  have hothers : ∀ owner x, owner ≠ .node id → next.block owner = some x →
      core.block owner = some x ∧ Apart (pages.base, pages.capacity) x := by
    intro owner x hne h
    have hold : core.block owner = some x := by
      cases owner with
      | node j =>
        rw [hnode, if_neg] at h
        · exact h
        · rintro rfl
          exact hne rfl
      | copy key => exact hcopy key x h
    rcases hown with hsame | ⟨_, hapart⟩
    · exact ⟨hold, memory.blocks_apart _ _ _ _ (Ne.symm hne) hsame hold⟩
    · exact ⟨hold, hapart _ _ hold⟩
  refine ⟨?_, ?_, ?_, ?_⟩
  · intro j x h
    rw [hcontents] at h
    split at h
    · cases h
      have hsize := (memory.content_valid id c hc).len_le
      have hsame : pages.size = c.len := by
        rcases hpages with rfl | ⟨_, hsame, _⟩
        · rfl
        · exact hsame
      exact Content.valid_pinned (by omega) hvalid
    · exact memory.content_valid j x h
  · intro addr size j times h
    rw [hget] at h
    split at h
    · rename_i hkey
      cases hkey
      cases h
      exact ⟨pages.base, pages.capacity, by rw [hnode, if_pos rfl], by omega, by omega, hlen⟩
    · obtain ⟨base, cap, hblock, hinside⟩ := memory.shared_inside addr size j times h
      refine ⟨base, cap, ?_, hinside⟩
      rw [hnode]
      split
      · rename_i hsame
        subst hsame
        rcases hown with hsame | ⟨hnone, _⟩
        · rw [← hsame, hblock]
        · simp [hnone] at hblock
      · exact hblock
  · intro addr size bytes h
    rw [hget] at h
    split at h
    · cases h
    · exact memory.copies addr size bytes h
  · intro a b left right hne hleft hright
    have hself : next.block (.node id) = some (pages.base, pages.capacity) := by rw [hnode, if_pos rfl]
    by_cases ha : a = .node id
    · subst ha
      rw [hself] at hleft
      cases hleft
      exact (hothers b right (Ne.symm hne) hright).2
    · by_cases hb : b = .node id
      · subst hb
        rw [hself] at hright
        cases hright
        exact (hothers a left ha hleft).2.symm
      · exact memory.blocks_apart _ _ _ _ hne (hothers a left ha hleft).1 (hothers b right hb hright).1

theorem Sound.mapShared {start len : ℕ} (hs : core.Sound none) (hc : core.content? id = some c)
    (hpages : c = .pinned pages ∨
      (c.pages? = none ∧ pages.size = c.len ∧ (Content.pinned pages).bytes = c.bytes ∧
        ∀ owner block, core.block owner = some block → Apart (pages.base, pages.capacity) block))
    (hvalid : pages.Valid) (hlen : 0 < len) (hend : start + len ≤ pages.capacity)
    (hrecord : core.mappings[(pages.base + start, len)]? = none ∧ n = 0 ∨
      core.mappings[(pages.base + start, len)]? = some (.shared id n)) :
    (core.mappedShared (pages.base + start, len) id n pages).Sound none := by
  obtain ⟨kept, hkept, hbody⟩ := content?_eq_some_iff.mp hc
  have hfiles : (core.mappedShared (pages.base + start, len) id n pages).files =
      core.files.modify id (FilePart.withMaps (· + 1) ∘ FilePart.withContent (.pinned pages)) := by
    unfold mappedShared
    rw [files_modifyNode (filePart_withMaps · _)]
    change (core.modifyNode id (withContent (.pinned pages))).files.modify id _ = _
    rw [files_modifyNode (filePart_withContent · _)]
    exact modify_modify _ _ _ _
  have hshapes : (core.mappedShared (pages.base + start, len) id n pages).shapes = core.shapes := by
    unfold mappedShared
    rw [shapes_modifyNode_same fun kept _ ↦ shape_withMaps kept _]
    exact shapes_withContent hc
  have hsize : pages.size = c.len := by
    rcases hpages with rfl | ⟨_, hsame, _⟩
    · rfl
    · exact hsame
  have hsome : ∀ j, (core.content? j).isSome →
      ((core.mappedShared (pages.base + start, len) id n pages).content? j).isSome :=
    fun j ↦ content?_isSome_rewritten hfiles (fun _ ↦ rfl) hc
  refine hs.of_files hshapes rfl rfl (by simp) ?_ ?_ ?_ ?_
  · refine held_modifyNode (held_modifyNode hs.held_weight fun _ _ ↦ .inr (Nat.le_refl _)) ?_
    intro x _
    exact .inr (by simp only [weight, withMaps]; omega)
  · refine hs.life.recount ?_ ?_ ?_
    · intro j part h
      obtain ⟨before, hbefore, rfl⟩ := get_modified hfiles h
      refine ⟨before, hbefore, by split <;> rfl, ?_⟩
      change _ = before.maps + mappingsOn (core.mappings.insert _ (.shared id (n + 1))) j
      rw [mappingsOn_counted hrecord]
      split
      · simp only [Function.comp, FilePart.withMaps, FilePart.withContent]
        omega
      · rfl
    · intro addr j h
      exact hsome j (hs.life.handle_file addr j h)
    · intro key j times h
      change (core.mappings.insert _ (.shared id (n + 1)))[key]? = _ at h
      rcases insert_cases h with ⟨_, hnew⟩ | ⟨_, h⟩
      · cases hnew
        exact ⟨Nat.succ_pos _, hsome id (by simp [hc])⟩
      · obtain ⟨hn, hfile⟩ := hs.life.mapping_file key j times h
        exact ⟨hn, hsome j hfile⟩
  · refine hs.accounted.modified hfiles rfl ?_
    intro part hpart
    have hsame : part.content = some c := by simpa [content?, hpart] using hc
    simp [FilePart.size, FilePart.withContent, FilePart.withMaps, hsame, Content.len, hsize]
  · refine hs.memory.mapShared hfiles (fun _ ↦ rfl) rfl hc ?_ hvalid hlen hend
    exact hpages.imp_right fun h ↦ ⟨h.1, h.2.1, h.2.2.2⟩

section Lessened

variable {key : ℕ × ℕ} {n : ℕ}

theorem lessened_eq :
    core.lessened key id n = { core with mappings := (core.lessened key id n).mappings } := by
  unfold lessened
  split <;> rfl

theorem mappingsOn_lessened (hrecord : core.mappings[key]? = some (.shared id n)) (hn : 0 < n)
    (j : ℕ) : mappingsOn (core.lessened key id n).mappings j + (if id = j then 1 else 0) =
      mappingsOn core.mappings j := by
  unfold lessened
  split
  · have hmove := mappingsOn_erase hrecord j
    change mappingsOn (core.mappings.erase key) j + _ = _
    by_cases hid : id = j <;> simp [Mapped.countOn, hid] at hmove ⊢ <;> omega
  · have hmove := mappingsOn_insert (.shared id (n - 1)) hrecord j
    change mappingsOn (core.mappings.insert key (.shared id (n - 1))) j + _ = _
    by_cases hid : id = j <;> simp [Mapped.countOn, hid] at hmove ⊢ <;> omega

/-- Every record is one that was there, or the one that counts one less. -/
theorem get_lessened (hrecord : core.mappings[key]? = some (.shared id n)) {j : ℕ × ℕ}
    {mapped : Mapped} (h : (core.lessened key id n).mappings[j]? = some mapped) :
    core.mappings[j]? = some mapped ∨
      core.mappings[j]? = some (.shared id n) ∧ mapped = .shared id (n - 1) ∧ 0 < n - 1 := by
  unfold lessened at h
  split at h
  · change (core.mappings.erase key)[j]? = _ at h
    exact .inl (get_of_erase h).2
  · rename_i hlast
    change (core.mappings.insert key (.shared id (n - 1)))[j]? = _ at h
    rcases insert_cases h with ⟨rfl, rfl⟩ | ⟨_, h⟩
    · exact .inr ⟨hrecord, rfl, Nat.pos_of_ne_zero hlast⟩
    · exact .inl h

theorem Memory.lessened (memory : core.Memory) (hrecord : core.mappings[key]? = some (.shared id n))
    (hcontents : next.content? = core.content?)
    (hmappings : next.mappings = (core.lessened key id n).mappings) : next.Memory := by
  have hblock : ∀ j, next.block (.node j) = core.block (.node j) := by
    intro j
    simp only [block, hcontents]
  refine memory.mono ?_ (fun j x h ↦ by rwa [hblock] at h) ?_ ?_
  · rw [hcontents]
    exact memory.content_valid
  · intro j node times h
    rw [hmappings] at h
    refine ⟨hblock node, ?_⟩
    rcases get_lessened hrecord h with hold | ⟨hold, hnew, _⟩
    · exact ⟨times, hold⟩
    · cases hnew
      exact ⟨n, hold⟩
  · intro j bytes h
    rw [hmappings] at h
    rcases get_lessened hrecord h with hold | ⟨_, hnew, _⟩
    · exact ⟨bytes, hold, rfl⟩
    · cases hnew

end Lessened

variable (hs : core.Sound none)
include hs

/-- One of the times a shared range was handed out is over, and its file is loose. -/
theorem Sound.unmapShared (hrecord : core.mappings[key]? = some (.shared id n)) :
    (core.unmappedShared key id n).Sound none := by
  obtain ⟨hn, hfile⟩ := hs.life.mapping_file key id n hrecord
  obtain ⟨c, hc⟩ := Option.isSome_iff_exists.mp hfile
  have hplain : core.parent? id = none := parent?_of_content? hc
  have hkept : core.lessened key id n = _ := lessened_eq
  have hnodes : (core.lessened key id n).nodes = core.nodes := by rw [hkept]
  have hfiles : ((core.lessened key id n).modifyNode id (withMaps (· - 1))).files =
      core.files.modify id (FilePart.withMaps (· - 1)) := by
    rw [files_modifyNode (filePart_withMaps · _)]
    unfold files
    rw [hnodes]
  have hshapes : ((core.lessened key id n).modifyNode id (withMaps (· - 1))).shapes = core.shapes := by
    rw [shapes_modifyNode_same fun kept _ ↦ shape_withMaps kept _]
    unfold shapes
    rw [hnodes]
  have hcontents := content?_modified hfiles fun _ ↦ rfl
  refine Sound.reap (hs.of_files hshapes (by rw [hkept]; rfl) (by rw [hkept]; rfl) ?_ ?_ ?_ ?_
    (hs.memory.lessened hrecord hcontents rfl)) ?_
  · rintro j ⟨⟩
    exact hplain
  · refine held_modifyNode (fun j kept h ↦ ?_) fun _ _ ↦ .inl rfl
    rw [hnodes] at h
    rcases hs.held_weight j kept h with hroot | hloose | hpos
    · exact .inl hroot
    · cases hloose
    · exact .inr (.inr hpos)
  · refine hs.life.recount ?_ ?_ ?_
    · intro j part h
      obtain ⟨before, hbefore, rfl⟩ := get_modified hfiles h
      refine ⟨before, hbefore, ?_, ?_⟩
      · change _ = before.opens + handlesOn (core.lessened key id n).handles j
        rw [hkept]
        split <;> rfl
      · change _ = before.maps + mappingsOn (core.lessened key id n).mappings j
        have hmove := mappingsOn_lessened hrecord hn j
        have hexact := hs.life.maps_exact j before hbefore
        by_cases hid : id = j
        · simp only [hid, if_true, FilePart.withMaps] at hmove ⊢
          omega
        · simp only [hid, if_false] at hmove ⊢
          omega
    · intro addr j h
      rw [hcontents]
      change (core.lessened key id n).handles[addr]? = _ at h
      rw [hkept] at h
      exact hs.life.handle_file addr j h
    · intro j node times h
      rw [hcontents]
      rcases get_lessened hrecord h with hold | ⟨_, hnew, hpos⟩
      · exact hs.life.mapping_file j node times hold
      · cases hnew
        exact ⟨hpos, hfile⟩
  · exact hs.accounted.modified hfiles (by rw [hkept]; rfl) fun _ _ ↦ rfl
  · intro name
    unfold child?
    rw [hshapes]
    exact entryOf_of_parentOf_none hplain name

/-- A record that is dropped, or a copy that is stored into. -/
theorem Sound.recopy (memory : Bytes) (hcounts : ∀ j, mappingsOn mappings j = mappingsOn core.mappings j)
    (hsame : ∀ (j : ℕ × ℕ) (mapped : Mapped), mappings[j]? = some mapped → core.mappings[j]? = some mapped ∨
        core.mappings[j]? = some (.privateCopy memory) ∧
          ∃ bytes : Bytes, mapped = .privateCopy bytes ∧ bytes.length = memory.length) :
    ({ core with mappings := mappings } : Core).Sound none := by
  have hshared : ∀ (j : ℕ × ℕ) (node n : ℕ), mappings[j]? = some (Mapped.shared node n) →
      core.mappings[j]? = some (.shared node n) := by
    intro j node n h
    rcases hsame j _ h with hold | ⟨_, bytes, hnew, _⟩
    · exact hold
    · cases hnew
  refine hs.of_files rfl rfl rfl (by simp) hs.held ?_ hs.accounted ?_
  · refine hs.life.recount ?_ hs.life.handle_file fun j node n h ↦
      hs.life.mapping_file j node n (hshared j node n h)
    intro j part h
    exact ⟨part, h, rfl, by rw [hcounts]⟩
  · refine hs.memory.mono hs.memory.content_valid (fun _ _ h ↦ h) ?_ ?_
    · intro j node n h
      exact ⟨rfl, n, hshared j node n h⟩
    · intro j bytes h
      rcases hsame j _ h with hold | ⟨hold, x, hnew, hlen⟩
      · exact ⟨bytes, hold, rfl⟩
      · cases hnew
        exact ⟨memory, hold, hlen⟩

theorem Sound.unmapPrivate
    (hrecord : core.mappings[key]? = some (.privateCopy memory)) :
    (core.withoutMapping key).Sound none := by
  refine hs.recopy memory (fun j ↦ mappingsOn_erase hrecord j) fun j mapped h ↦ .inl ?_
  exact (get_of_erase h).2

theorem Sound.storePrivate {i : ℕ} {v : UInt8}
    (hrecord : core.mappings[key]? = some (.privateCopy memory)) :
    (core.withMapping key (.privateCopy (memory.set i v))).Sound none := by
  refine hs.recopy memory (fun j ↦ mappingsOn_insert _ hrecord j) fun j mapped h ↦ ?_
  rcases insert_cases h with ⟨rfl, rfl⟩ | ⟨_, h⟩
  · exact .inr ⟨hrecord, _, rfl, by simp⟩
  · exact .inl h

/-! ## Every step -/

/-- Every step of the core keeps it sound. -/
theorem Sound.step (hstep : core.Step next) : next.Sound none := by
  cases hstep with
  | attach hparent hvacant hvalid hbody => exact hs.attach hparent hvacant hvalid hbody
  | detach he hempty => exact hs.detach he hempty
  | move he htarget hvacant hvalid hoff => exact hs.move he htarget hvacant hvalid hoff
  | link hparent hvacant hvalid hkept hplain => exact hs.link hparent hvacant hvalid hkept hplain
  | openFile hfree hc => exact hs.openFile hfree hc
  | close hhandle => exact hs.close hhandle
  | box hfree => exact hs.box hfree
  | unbox hhandle => exact hs.unbox hhandle
  | edit hkept hbody hedited => exact hs.edit hkept hbody hedited
  | work hdir =>
    exact ⟨hs.tree, hs.below, hs.parent_below hdir, fun _ _ ↦ hdir, hs.held,
      hs.life.congr rfl rfl rfl, hs.accounted, hs.memory.congr rfl rfl⟩
  | setCapacity =>
    exact ⟨hs.tree, hs.below, hs.working_below, hs.working_directory, hs.held,
      hs.life.congr rfl rfl rfl, hs.accounted, hs.memory.congr rfl rfl⟩
  | mapShared hc hpages hvalid hlen hend hrecord =>
    exact hs.mapShared hc hpages hvalid hlen hend hrecord
  | mapPrivate hlen hmemory hapart => exact hs.mapPrivate hlen hmemory hapart
  | unmapShared hrecord => exact hs.unmapShared hrecord
  | unmapPrivate hrecord => exact hs.unmapPrivate hrecord
  | storeShared hc _ _ => exact hs.storeShared hc
  | storePrivate hrecord => exact hs.storePrivate hrecord

end Core

end DotnetPal.Memfs
