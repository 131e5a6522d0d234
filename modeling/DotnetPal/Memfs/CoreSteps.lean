import DotnetPal.Memfs.CoreSound

/-!
# Every step keeps the core sound

One lemma for each step of the core. The steps that take a reference away make the node loose and
leave the rest to `Core.Sound.reap`.
-/

open Std

namespace DotnetPal.Memfs

open Hierarchy DirectoryTree OrderedMap

attribute [local instance] lexOrd

/-- The references that keep a node. -/
def Kept.weight (kept : Kept) : ℕ := kept.links + kept.opens + kept.maps

@[simp]
theorem Kept.weight_withEntries (kept : Kept) (change : Entries → Entries) :
    (kept.withEntries change).weight = kept.weight := by
  cases hbody : kept.body <;> simp [Kept.withEntries, Kept.weight, hbody]

@[simp]
theorem Kept.weight_withParent (kept : Kept) (parent : ℕ) :
    (kept.withParent parent).weight = kept.weight := by
  cases hbody : kept.body <;> simp [Kept.withParent, Kept.weight, hbody]

namespace Core

variable {core next : Core} {id parent : ℕ} {name : Bytes}

theorem get_modifyNode (changed j : ℕ) (change : Kept → Kept) : (core.modifyNode changed change).nodes[j]? =
      if changed = j then core.nodes[j]?.map change else core.nodes[j]? :=
  get_modify _ _ _ _

/-- A change of one node that takes nothing away from what keeps it. -/
theorem held_modifyNode {loose : Option ℕ} {changed : ℕ} {change : Kept → Kept}
    (h : ∀ (id : ℕ) (kept : Kept), core.nodes[id]? = some kept → id = root ∨ loose = some id ∨ 0 <
      kept.weight)
    (hchange : ∀ kept, core.nodes[changed]? = some kept → loose = some changed ∨ kept.weight ≤
      (change kept).weight) :
    ∀ (id : ℕ) (kept : Kept), (core.modifyNode changed change).nodes[id]? = some kept →
      id = root ∨ loose = some id ∨ 0 < kept.weight := by
  intro j kept hkept
  rw [get_modifyNode] at hkept
  split at hkept
  · rename_i hsame
    subst hsame
    cases hold : core.nodes[changed]? with
    | none => simp [hold] at hkept
    | some old =>
      rw [hold] at hkept
      cases hkept
      rcases hchange old hold with hloose | hgrows
      · exact .inr (.inl hloose)
      · rcases h changed old hold with hroot | hloose | hpos
        · exact .inl hroot
        · exact .inr (.inl hloose)
        · exact .inr (.inr (by omega))
  · exact h j kept hkept

theorem Sound.held_weight {loose : Option ℕ} (hs : core.Sound loose) (j : ℕ) (kept : Kept)
    (h : core.nodes[j]? = some kept) : j = root ∨ loose = some j ∨ 0 < kept.weight :=
  hs.held j kept h

/-! ## Steps of names -/

variable (hs : core.Sound none)
include hs

theorem Sound.link {kept : Kept} (hparent : (core.parent? parent).isSome)
    (hvacant : core.child? parent name = none) (hvalid : ValidName name)
    (hkept : core.nodes[id]? = some kept)
    (hplain : core.parent? id = none) : (core.linked parent name id).Sound none := by
  refine hs.of_names (files_linked parent name id) rfl rfl rfl rfl rfl ?_ ?_ ?_ ?_
  · rw [shapes_linked]
    refine hs.tree.giveName hparent hvacant hvalid ⟨kept.shape, by simp [get_shapes, hkept]⟩ ?_ (.inl rfl)
    intro above habove
    rw [show parentOf core.shapes id = none from hplain] at habove
    cases habove
  · intro j shape h
    rw [shapes_linked] at h
    exact live_modify.mp (live_modify.mp ⟨shape, h⟩)
  · intro j h
    unfold parent? at h ⊢
    rwa [shapes_linked, parentOf_named]
  · refine held_modifyNode (held_modifyNode hs.held_weight ?_) ?_
    · intro x _
      exact .inr (by simp)
    · intro x _
      exact .inr (by simp [Kept.weight, Kept.withLinks])

/-- A node that loses a name is loose. -/
theorem Sound.unnamed (he : core.child? parent name = some id) :
    (core.unnamed parent name id).Sound (some id) := by
  refine hs.of_names (files_unnamed parent name id) rfl rfl rfl rfl rfl ?_ ?_ ?_ ?_
  · rw [shapes_unnamed]
    exact hs.tree.takeName he
  · intro j shape h
    rw [shapes_unnamed] at h
    exact live_modify.mp (live_modify.mp ⟨shape, h⟩)
  · intro j h
    unfold parent? at h ⊢
    rwa [shapes_unnamed, parentOf_unnamed]
  · refine held_modifyNode (held_modifyNode (fun j kept h ↦ ?_) ?_) ?_
    · rcases hs.held_weight j kept h with hroot | hloose | hpos
      · exact .inl hroot
      · cases hloose
      · exact .inr (.inr hpos)
    · intro x _
      exact .inr (by simp)
    · intro x _
      exact .inl rfl

theorem Sound.detach (he : core.child? parent name = some id)
    (hempty : (core.parent? id).isSome → ∀ j, core.child? id j = none) :
    (core.detached parent name id).Sound none := by
  refine (hs.unnamed he).reap fun j ↦ ?_
  unfold child?
  rw [shapes_unnamed, entryOf_unnamed]
  split
  · rfl
  · cases hparent : core.parent? id with
    | some above => exact hempty (by simp [hparent]) j
    | none => exact entryOf_of_parentOf_none hparent j

theorem Sound.move {source target : ℕ} {old new : Bytes}
    (he : core.child? source old = some id) (htarget : (core.parent? target).isSome)
    (hvacant : core.child? target new = none) (hvalid : ValidName new)
    (hoff : (core.parent? id).isSome → Avoids core.parent? root id target) :
    (core.moved source old target new id).Sound none := by
  obtain ⟨shape, hshape⟩ := hs.tree.entry_live _ _ _ he
  have hlinks : 0 < shape.links := by
    rw [hs.tree.links_exact id shape hshape]
    have hpos : namings core.shapes id ≠ 0 := fun hzero ↦ namings_eq_zero_iff.mp hzero _ _ he
    omega
  have hshapes := shapes_moved source old target new hshape hlinks
  refine hs.of_names (files_moved source old target new id) rfl rfl rfl rfl rfl ?_ ?_ ?_ ?_
  · rw [hshapes]
    exact hs.tree.move he htarget hvacant hvalid hoff
  · intro j x h
    rw [hshapes] at h
    exact live_modify.mp (live_modify.mp (live_modify.mp (live_modify.mp (live_modify.mp ⟨x, h⟩))))
  · intro j h
    unfold parent?
    rw [hshapes, isSome_parentOf_moved]
    exact h
  · refine held_modifyNode (held_modifyNode (held_modifyNode hs.held_weight ?_) ?_) ?_
    all_goals
      intro x _
      exact .inr (by simp)

omit hs in
/-- A node that is created has no entries, and accounts for no bytes. -/
theorem NewBody.facts {body : Body} (h : NewBody parent body) :
    (∀ j, (⟨0, body.directory?⟩ : Shape ℕ Bytes compare).entry j = none) ∧
      (∀ above, (⟨0, body.directory?⟩ : Shape ℕ Bytes compare).parent = some above → above = parent) ∧
      ∀ c, body.content? = some c → c.Valid ∧ c.len = 0 ∧ c.pages? = none := by
  cases h with
  | file =>
    refine ⟨fun _ ↦ rfl, by simp [Shape.parent, Body.directory?], ?_⟩
    rintro c ⟨⟩
    exact ⟨Content.valid_plain (by simp), rfl, rfl⟩
  | directory =>
    refine ⟨by simp [Shape.entry, Body.directory?], ?_, by simp [Body.content?]⟩
    rintro above ⟨⟩
    rfl
  | link target => exact ⟨fun _ ↦ rfl, by simp [Shape.parent, Body.directory?], by simp [Body.content?]⟩

theorem Sound.new_free : core.shapes[core.nextId]? = none := by
  cases h : core.shapes[core.nextId]? with
  | none => rfl
  | some shape => exact absurd (hs.below _ shape h) (Nat.lt_irrefl _)

theorem Sound.parent_below (h : (core.parent? id).isSome) : id < core.nextId := by
  unfold parent? parentOf at h
  cases hshape : core.shapes[id]? with
  | none => simp [hshape] at h
  | some shape => exact hs.below id shape hshape

omit hs

section Arrive

variable {part : FilePart} (hfresh : core.files[id]? = none)
  (hfiles : next.files = core.files.insert id part)

include hfresh hfiles

omit hfresh in
theorem content?_arrive (j : ℕ) :
    next.content? j = if id = j then part.content else core.content? j := by
  unfold content?
  rw [hfiles, get_insert]
  split <;> rfl

/-- What names a file before names the same file after. -/
theorem content?_isSome_arrive {j : ℕ} (h : (core.content? j).isSome) : (next.content? j).isSome := by
  rw [content?_arrive hfiles, if_neg]
  · exact h
  · rintro rfl
    simp [content?, hfresh] at h

theorem Life.arrive (life : core.Life) (hopens : part.opens = 0) (hmaps : part.maps = 0)
    (hhandles : next.handles = core.handles) (hmappings : next.mappings = core.mappings) : next.Life := by
  have hnone : core.content? id = none := by simp [content?, hfresh]
  have hhandlesOn : handlesOn core.handles id = 0 := by
    rw [handlesOn, total_eq_zero_iff]
    intro addr node hnode
    have hne : node ≠ some id := by
      rintro rfl
      simpa [hnone] using life.handle_file addr id hnode
    simp [hne]
  have hmappingsOn : mappingsOn core.mappings id = 0 := by
    rw [mappingsOn, total_eq_zero_iff]
    intro key mapped hmapped
    cases mapped with
    | privateCopy memory => rfl
    | shared node n =>
      have hne : node ≠ id := by
        rintro rfl
        simpa [hnone] using (life.mapping_file key node n hmapped).2
      simp [Mapped.countOn, hne]
  constructor
  · intro j x h
    rw [hfiles] at h
    rw [hhandles]
    rcases insert_cases h with ⟨rfl, rfl⟩ | ⟨_, h⟩
    · omega
    · exact life.opens_exact j x h
  · intro j x h
    rw [hfiles] at h
    rw [hmappings]
    rcases insert_cases h with ⟨rfl, rfl⟩ | ⟨_, h⟩
    · omega
    · exact life.maps_exact j x h
  · intro addr j h
    rw [hhandles] at h
    exact content?_isSome_arrive hfresh hfiles (life.handle_file addr j h)
  · intro key j n h
    rw [hmappings] at h
    obtain ⟨hn, hfile⟩ := life.mapping_file key j n h
    exact ⟨hn, content?_isSome_arrive hfresh hfiles hfile⟩

theorem Memory.arrive (memory : core.Memory)
    (hc : ∀ c, part.content = some c → c.Valid ∧ c.pages? = none)
    (hmappings : next.mappings = core.mappings) : next.Memory := by
  have hcontents := content?_arrive hfiles
  have hunused : core.content? id = none := by simp [content?, hfresh]
  have hnew : part.content.bind Content.pages? = none := by
    cases hpart : part.content with
    | none => rfl
    | some c => exact (hc c hpart).2
  have hblock : ∀ j, next.block (.node j) = core.block (.node j) := by
    intro j
    simp only [block, hcontents]
    split
    · rename_i hsame
      subst hsame
      simp [hunused, hnew]
    · rfl
  refine memory.mono ?_ (fun j x h ↦ by rwa [hblock] at h) ?_ ?_
  · intro j c h
    rw [hcontents] at h
    split at h
    · exact (hc c h).1
    · exact memory.content_valid j c h
  · intro key j n h
    rw [hmappings] at h
    exact ⟨hblock j, n, h⟩
  · intro key bytes h
    rw [hmappings] at h
    exact ⟨bytes, h, rfl⟩

end Arrive

theorem Sound.attach {body : Body} (hs : core.Sound none) (hparent : (core.parent? parent).isSome)
    (hvacant : core.child? parent name = none) (hvalid : ValidName name) (hbody : NewBody parent body) :
    (core.attached parent name body).Sound none := by
  obtain ⟨hentries, habove, hc⟩ := hbody.facts
  have hnew := hs.new_free
  have hne : parent ≠ core.nextId := Nat.ne_of_lt (hs.parent_below hparent)
  have hroot : root < core.nextId := hs.parent_below (by
    unfold parent?
    rw [hs.tree.root_parent]
    rfl)
  have hshapes := shapes_attached name body hne hnew
  have hfiles : (core.attached parent name body).files = _ := files_attached name body
  have hfresh : core.files[core.nextId]? = none := by simpa [get_files, get_shapes] using hnew
  have harrived := hs.tree.arrive hnew rfl hentries (by
    intro above h
    rw [habove above h]
    exact hparent)
  have hparents : ∀ j, j ≠ core.nextId →
      parentOf (core.shapes.insert core.nextId ⟨0, body.directory?⟩) j = parentOf core.shapes j := by
    intro j hj
    simp [parentOf, Ne.symm hj]
  refine ⟨?_, ?_, ?_, ?_, ?_, hs.life.arrive hfresh hfiles rfl rfl rfl rfl, ?_,
    hs.memory.arrive hfresh hfiles (fun c h ↦ ⟨(hc c h).1, (hc c h).2.2⟩) rfl⟩
  · rw [hshapes]
    refine harrived.giveName ?_ ?_ hvalid ⟨_, ExtTreeMap.getElem?_insert_self⟩ ?_ (.inr rfl)
    · rw [hparents parent hne]
      exact hparent
    · have hsame : entryOf (core.shapes.insert core.nextId ⟨0, body.directory?⟩) parent name =
          entryOf core.shapes parent name := by simp [entryOf, Ne.symm hne]
      rw [hsame]
      exact hvacant
    · intro above h
      have hself : (⟨0, body.directory?⟩ : Shape ℕ Bytes compare).parent = some above := by
        simpa [parentOf] using h
      exact ⟨rfl, habove above hself, Nat.ne_of_gt hroot⟩
  · intro j shape h
    rw [hshapes] at h
    obtain ⟨x, hx⟩ := live_modify.mp (live_modify.mp ⟨shape, h⟩)
    rcases insert_cases hx with ⟨rfl, rfl⟩ | ⟨_, hx⟩
    · exact Nat.lt_succ_self _
    · exact Nat.lt_succ_of_lt (hs.below j x hx)
  · exact Nat.lt_succ_of_lt hs.working_below
  · intro shape h
    have hj : core.working ≠ core.nextId := Nat.ne_of_lt hs.working_below
    change (core.attached parent name body).shapes[core.working]? = some shape at h
    change ((core.attached parent name body).parent? core.working).isSome
    unfold parent?
    rw [hshapes] at h ⊢
    rw [parentOf_named, hparents _ hj]
    obtain ⟨x, hx⟩ := live_modify.mp (live_modify.mp ⟨shape, h⟩)
    rw [get_insert, if_neg (Ne.symm hj)] at hx
    exact hs.working_directory x hx
  · intro j kept h
    rcases insert_cases h with ⟨_, rfl⟩ | ⟨_, h⟩
    · exact .inr (.inr (by simp))
    · rcases modify_cases h with ⟨_, old, hold, rfl⟩ | ⟨_, h⟩
      · rcases hs.held_weight j old hold with hisRoot | hloose | hpos
        · exact .inl hisRoot
        · cases hloose
        · rw [← Kept.weight_withEntries old (·.insert name core.nextId)] at hpos
          exact .inr (.inr hpos)
      · exact hs.held j kept h
  · have hsize : (⟨0, 0, body.content?⟩ : FilePart).size = 0 := by
      cases hx : body.content? with
      | none => rfl
      | some c => simp [FilePart.size, (hc c hx).2.1]
    unfold Accounted
    rw [hfiles, total_insert_new _ _ _ hfresh, hsize]
    exact hs.accounted

end Core

end DotnetPal.Memfs
