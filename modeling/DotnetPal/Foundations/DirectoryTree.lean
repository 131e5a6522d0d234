import DotnetPal.Foundations.Hierarchy
import DotnetPal.Foundations.OrderedMap

/-!
# Trees of named directories

A table of nodes, each with a link count and, if it is a directory, a parent and named entries.
`Tree` says that the directories form a tree below the root in which every one of them has exactly
one name, in its parent, and that link counts are exact. A directory that is on its way in or out is
`loose`: it has no name yet, or no longer.

Everything that happens to such a table is made of five changes: a node arrives without a
name, a name is given, a name is taken away, a nameless directory gets another parent, a
nameless node leaves.
-/

set_option linter.unusedSectionVars false

open Std Option

namespace DotnetPal.DirectoryTree

open Hierarchy OrderedMap

variable {ι ν : Type} {order : ι → ι → Ordering} {names : ν → ν → Ordering}

/-- What the tree knows of a node: its link count, and its parent and entries if it is a directory. -/
@[ext]
structure Shape (ι ν : Type) (names : ν → ν → Ordering) where
  links : ℕ
  directory : Option (ι × ExtTreeMap ν ι names)

variable [TransCmp order] [LawfulEqCmp order] [TransCmp names] [LawfulEqCmp names]
variable [DecidableEq ι] [DecidableEq ν]

variable {id : ι}

namespace Shape

variable (shape : Shape ι ν names)

def withLinks (change : ℕ → ℕ) (shape : Shape ι ν names) : Shape ι ν names :=
  { shape with links := change shape.links }

def withEntries (change : ExtTreeMap ν ι names → ExtTreeMap ν ι names) (shape : Shape ι ν names) :
    Shape ι ν names :=
  { shape with directory := shape.directory.map fun found ↦ (found.1, change found.2) }

def withParent (parent : ι) (shape : Shape ι ν names) : Shape ι ν names :=
  { shape with directory := shape.directory.map fun found ↦ (parent, found.2) }

def parent : Option ι := shape.directory.map Prod.fst

/-- The node an entry of a directory names. -/
def entry (name : ν) : Option ι := shape.directory.bind fun found ↦ found.2[name]?

/-- The entries of the node that name `id`. -/
def namings (id : ι) : ℕ :=
  match shape.directory with
  | none => 0
  | some (_, entries) => total (fun _ child ↦ if child = id then 1 else 0) entries

variable {shape}

theorem namings_eq_zero_iff : shape.namings id = 0 ↔ ∀ name, shape.entry name ≠ some id := by
  cases hdir : shape.directory with
  | none => simp [namings, entry, hdir]
  | some x =>
    simp only [namings, entry, hdir, total_eq_zero_iff, bind_some]
    constructor
    · intro hzero name hname
      simpa using hzero name id hname
    · intro hnone name child hchild
      have hne : child ≠ id := by
        rintro rfl
        exact hnone name hchild
      simp [hne]

end Shape

section Lookups

variable (t : ExtTreeMap ι (Shape ι ν names) order)

/-- The parent of a directory. -/
def parentOf (id : ι) : Option ι := t[id]?.bind Shape.parent

/-- The node that an entry of a directory names. -/
def entryOf (dir : ι) (name : ν) : Option ι := t[dir]?.bind fun shape ↦ shape.entry name

/-- The entries of the whole table that name `id`. -/
def namings (id : ι) : ℕ := total (fun _ shape ↦ shape.namings id) t

variable {t}

theorem namings_eq_zero_iff : namings t id = 0 ↔ ∀ dir name, entryOf t dir name ≠ some id := by
  unfold namings entryOf
  rw [total_eq_zero_iff]
  constructor
  · intro h dir name
    cases hshape : t[dir]? with
    | none => simp
    | some shape => exact Shape.namings_eq_zero_iff.mp (h dir shape hshape) name
  · intro h dir shape hshape
    rw [Shape.namings_eq_zero_iff]
    intro name
    simpa [hshape] using h dir name

end Lookups

/-- The directories form a tree with exact link counts; the loose directory has no name. -/
structure Tree (root : ι) (valid : ν → Prop) (loose : Option ι)
    (t : ExtTreeMap ι (Shape ι ν names) order) : Prop where
  root_parent : parentOf t root = some root
  entry_live : ∀ dir name id, entryOf t dir name = some id →
    ∃ shape, t[id]? = some shape
  /-- A directory is named in its parent only. -/
  entry_parent : ∀ dir name id above, entryOf t dir name = some id →
    parentOf t id = some above → id ≠ root ∧ above = dir
  one_name : ∀ dir first second id, entryOf t dir first = some id →
    entryOf t dir second = some id → (parentOf t id).isSome → first = second
  has_name : ∀ id above, parentOf t id = some above → id ≠ root → loose ≠ some id →
    ∃ name, entryOf t above name = some id
  loose_unnamed : ∀ id, loose = some id → (parentOf t id).isSome →
    ∀ dir name, entryOf t dir name ≠ some id
  climbs : ∀ id, (parentOf t id).isSome → Climbs (parentOf t) root id
  links_exact : ∀ id shape, t[id]? = some shape →
    shape.links = namings t id + if id = root then 1 else 0
  valid_names : ∀ dir name id, entryOf t dir name = some id → valid name

variable {root : ι} {valid : ν → Prop} {loose : Option ι}
variable {t : ExtTreeMap ι (Shape ι ν names) order}

/-- What is no directory may be loose. -/
theorem Tree.loosen (tree : Tree root valid none t) (h : parentOf t id = none) :
    Tree root valid (some id) t :=
  { tree with
    has_name := fun j above hparent hroot _ ↦ tree.has_name j above hparent hroot (by simp)
    loose_unnamed := by
      rintro j ⟨⟩ hj
      simp [h] at hj }

/-- Only directories have to be named, and the root needs no name. -/
theorem Tree.settle (tree : Tree root valid (some id) t)
    (h : parentOf t id = none ∨ id = root) : Tree root valid none t := by
  refine { tree with has_name := fun j above hparent hroot _ ↦ ?_, loose_unnamed := by simp }
  apply tree.has_name j above hparent hroot
  rintro ⟨⟩
  rcases h with hnone | hid
  · simp [hnone] at hparent
  · exact hroot hid

/-- Only directories have entries. -/
theorem entryOf_of_parentOf_none (h : parentOf t id = none) (name : ν) : entryOf t id name = none := by
  unfold parentOf at h
  unfold entryOf
  cases hshape : t[id]? with
  | none => rfl
  | some shape => cases hdir : shape.directory <;> simp_all [Shape.parent, Shape.entry]

theorem exists_directory (h : (parentOf t id).isSome) :
    ∃ shape x, t[id]? = some shape ∧ shape.directory = some x := by
  obtain ⟨above, habove⟩ := isSome_iff_exists.mp h
  obtain ⟨shape, hshape, hparent⟩ := bind_eq_some_iff.mp habove
  obtain ⟨x, hx, _⟩ := map_eq_some_iff.mp hparent
  exact ⟨shape, x, hshape, hx⟩

theorem isSome_parentOf_of_entryOf {dir : ι} {name : ν}
    (h : entryOf t dir name = some id) : (parentOf t dir).isSome := by
  cases hparent : parentOf t dir with
  | some above => rfl
  | none => simp [entryOf_of_parentOf_none hparent] at h

/-- The parent of a directory is a directory. -/
theorem Tree.parent_directory (tree : Tree root valid none t) {above : ι}
    (h : parentOf t id = some above) : (parentOf t above).isSome := by
  by_cases hroot : id = root
  · rw [hroot, tree.root_parent] at h
    cases h
    simp [tree.root_parent]
  · obtain ⟨name, hname⟩ := tree.has_name id above h hroot (by simp)
    exact isSome_parentOf_of_entryOf hname

/-! ## A node arrives -/

variable {shape : Shape ι ν names}

/-- A node without a name, and without entries if it is a directory. -/
theorem Tree.arrive (tree : Tree root valid none t)
    (hnew : t[id]? = none) (hlinks : shape.links = 0) (hempty : ∀ name, shape.entry name = none)
    (hparent : ∀ above, shape.parent = some above → (parentOf t above).isSome) :
    Tree root valid (some id) (t.insert id shape) := by
  have he : ∀ dir name, entryOf (t.insert id shape) dir name = entryOf t dir name := by
    intro dir name
    simp only [entryOf, get_insert]
    split
    · rename_i heq
      simp [← heq, hnew, hempty]
    · rfl
  have hparentOf : ∀ j, parentOf (t.insert id shape) j =
      if id = j then shape.parent else parentOf t j := by
    intro j
    simp only [parentOf, get_insert]
    split <;> rfl
  have hunnamed : ∀ dir name, entryOf t dir name ≠ some id := by
    intro dir name hname
    obtain ⟨x, hx⟩ := tree.entry_live _ _ _ hname
    simp [hnew] at hx
  have hnamings : ∀ j, namings (t.insert id shape) j = namings t j := by
    intro j
    have hzero : shape.namings j = 0 := Shape.namings_eq_zero_iff.mpr (by simp [hempty])
    simp only [namings, total_insert_new _ _ shape hnew, hzero, Nat.add_zero]
  have hkeep : ∀ lower above, parentOf t lower = some above → parentOf (t.insert id shape) lower =
    some above := by
    intro lower above h
    rw [hparentOf, if_neg, h]
    rintro rfl
    simp [parentOf, hnew] at h
  refine ⟨hkeep _ _ tree.root_parent, ?_, ?_, ?_, ?_, ?_, ?_, ?_, ?_⟩
  · intro dir name j h
    rw [he] at h
    obtain ⟨x, hx⟩ := tree.entry_live _ _ _ h
    by_cases hid : id = j
    · simp [hid]
    · exact ⟨x, by rw [get_insert, if_neg hid, hx]⟩
  · intro dir name j above h hj
    rw [he] at h
    rw [hparentOf, if_neg] at hj
    · exact tree.entry_parent _ _ _ _ h hj
    · rintro rfl
      exact hunnamed _ _ h
  · intro dir a b j ha hb hj
    rw [he] at ha hb
    rw [hparentOf, if_neg] at hj
    · exact tree.one_name _ _ _ _ ha hb hj
    · rintro rfl
      exact hunnamed _ _ ha
  · intro j above h hroot hloose
    rw [hparentOf, if_neg (by simpa using hloose)] at h
    obtain ⟨name, hname⟩ := tree.has_name j above h hroot (by simp)
    exact ⟨name, by rw [he, hname]⟩
  · rintro j ⟨⟩ _ dir name
    rw [he]
    exact hunnamed dir name
  · intro j hj
    rw [hparentOf] at hj
    split at hj
    · rename_i hid
      subst hid
      obtain ⟨above, habove⟩ := isSome_iff_exists.mp hj
      exact .step (by rw [hparentOf, if_pos rfl, habove])
        ((tree.climbs above (hparent above habove)).mono fun lower above _ ↦ hkeep lower above)
    · exact (tree.climbs j hj).mono fun lower above _ ↦ hkeep lower above
  · intro j x hx
    rw [hnamings]
    rcases insert_cases hx with ⟨rfl, rfl⟩ | ⟨_, hx⟩
    · have hzero : namings t id = 0 := namings_eq_zero_iff.mpr hunnamed
      have hroot : id ≠ root := by
        rintro rfl
        simpa [parentOf, hnew] using tree.root_parent
      simp [hlinks, hzero, hroot]
    · exact tree.links_exact j x hx
  · simpa only [he] using tree.valid_names

/-! ## A node gets a name -/

omit [DecidableEq ν] in
variable {change : Shape ι ν names → Shape ι ν names} {changed : ι}

/-- A change that keeps parents keeps every parent. -/
theorem parentOf_modify (h : ∀ shape, (change shape).parent = shape.parent) (id : ι) :
    parentOf (t.modify changed change) id = parentOf t id := by
  simp only [parentOf, get_modify]
  split
  · cases t[id]? <;> simp [h]
  · rfl

/-- A change that keeps entries keeps every entry. -/
theorem entryOf_modify (h : ∀ shape name, (change shape).entry name = shape.entry name) (dir : ι)
    (name : ν) :
    entryOf (t.modify changed change) dir name = entryOf t dir name := by
  simp only [entryOf, get_modify]
  split
  · cases t[dir]? <;> simp [h]
  · rfl

/-- A change that keeps entries keeps every count. -/
theorem namings_modify (h : ∀ shape id, (change shape).namings id = shape.namings id) (id : ι) :
    namings (t.modify changed change) id = namings t id :=
  total_modify_same _ _ fun shape _ ↦ h shape id

/-- Nothing arrives or leaves by a change. -/
theorem live_modify :
    (∃ shape, (t.modify changed change)[id]? = some shape) ↔ ∃ shape, t[id]? = some shape := by
  rw [get_modify]
  split
  · cases t[id]? <;> simp
  · rfl

theorem Shape.parent_withLinks (change : ℕ → ℕ) (shape : Shape ι ν names) :
    (shape.withLinks change).parent = shape.parent := rfl

theorem Shape.entry_withLinks (change : ℕ → ℕ) (shape : Shape ι ν names) (name : ν) :
    (shape.withLinks change).entry name = shape.entry name := rfl

theorem Shape.namings_withLinks (change : ℕ → ℕ) (shape : Shape ι ν names) (id : ι) :
    (shape.withLinks change).namings id = shape.namings id := rfl

theorem Shape.parent_withEntries (change : ExtTreeMap ν ι names → ExtTreeMap ν ι names)
    (shape : Shape ι ν names) : (shape.withEntries change).parent = shape.parent := by
  cases h : shape.directory <;> simp [Shape.parent, Shape.withEntries, h]

theorem Shape.namings_withParent (parent : ι) (shape : Shape ι ν names) (id : ι) :
    (shape.withParent parent).namings id = shape.namings id := by
  cases h : shape.directory <;> simp [Shape.namings, Shape.withParent, h]

theorem Shape.entry_withParent (parent : ι) (shape : Shape ι ν names) (name : ν) :
    (shape.withParent parent).entry name = shape.entry name := by
  cases h : shape.directory <;> simp [Shape.entry, Shape.withParent, h]

theorem links_modify {dir j : ι} {entries : ExtTreeMap ν ι names → ExtTreeMap ν ι names} {n : ℕ → ℕ}
    (h : ((t.modify dir (Shape.withEntries entries)).modify id (Shape.withLinks n))[j]? = some shape) :
    ∃ old, t[j]? = some old ∧ shape.links = if id = j then n old.links else old.links := by
  rcases modify_cases h with ⟨rfl, middle, hmiddle, rfl⟩ | ⟨hid, hmiddle⟩ <;>
    rcases modify_cases hmiddle with ⟨_, old, hold, rfl⟩ | ⟨_, hold⟩
  · exact ⟨old, hold, (if_pos rfl).symm⟩
  · exact ⟨middle, hold, (if_pos rfl).symm⟩
  · exact ⟨old, hold, (if_neg hid).symm⟩
  · exact ⟨shape, hold, (if_neg hid).symm⟩

/-- The table with a new entry for `id`. -/
def named (t : ExtTreeMap ι (Shape ι ν names) order) (dir : ι) (name : ν) (id : ι) :
    ExtTreeMap ι (Shape ι ν names) order :=
  (t.modify dir (Shape.withEntries (·.insert name id))).modify id (Shape.withLinks (· + 1))

section Named

variable {dir id : ι} {name : ν}

theorem parentOf_named (j : ι) : parentOf (named t dir name id) j = parentOf t j := by
  unfold named
  rw [parentOf_modify (Shape.parent_withLinks _), parentOf_modify (Shape.parent_withEntries _)]

theorem entryOf_named (hdir : (parentOf t dir).isSome) (holder : ι) (j : ν) :
    entryOf (named t dir name id) holder j =
      if dir = holder ∧ name = j then some id else entryOf t holder j := by
  unfold named
  rw [entryOf_modify (Shape.entry_withLinks _)]
  simp only [entryOf, get_modify]
  by_cases hholder : dir = holder
  · subst hholder
    obtain ⟨shape, x, hshape, hx⟩ := exists_directory hdir
    simp [hshape, Shape.entry, Shape.withEntries, hx, get_insert]
  · simp [hholder]

theorem namings_named (hdir : (parentOf t dir).isSome) (hvacant : entryOf t dir name = none) (j : ι) :
    namings (named t dir name id) j = namings t j + if id = j then 1 else 0 := by
  unfold named
  rw [namings_modify (Shape.namings_withLinks _)]
  obtain ⟨shape, x, hshape, hx⟩ := exists_directory hdir
  have hnew : x.2[name]? = none := by simpa [entryOf, hshape, Shape.entry, hx] using hvacant
  have hmove := total_modify_add (fun _ (shape : Shape ι ν names) ↦ shape.namings j)
    t (Shape.withEntries (·.insert name id)) hshape
  have hgrow : (shape.withEntries (·.insert name id)).namings j = shape.namings j + if id =
    j then 1 else 0 := by
    simp only [Shape.namings, Shape.withEntries, hx, map_some]
    exact total_insert_new _ _ id hnew
  unfold namings
  omega

/-- A name for a node that is no directory, or for the loose directory in its parent. -/
theorem Tree.giveName (tree : Tree root valid loose t) (hdir : (parentOf t dir).isSome)
    (hvacant : entryOf t dir name = none) (hvalid : valid name)
    (hlive : ∃ shape, t[id]? = some shape)
    (hloose : ∀ above, parentOf t id = some above → loose = some id ∧ above = dir ∧ id ≠ root)
    (honly : loose = none ∨ loose = some id) :
    Tree root valid none (named t dir name id) := by
  have hunnamed : (parentOf t id).isSome → ∀ holder j, entryOf t holder j ≠ some id := by
    intro hid
    obtain ⟨above, habove⟩ := isSome_iff_exists.mp hid
    exact tree.loose_unnamed id (hloose above habove).1 hid
  refine ⟨by rw [parentOf_named, tree.root_parent], ?_, ?_, ?_, ?_, by simp, ?_, ?_, ?_⟩
  · intro holder j child h
    rw [entryOf_named hdir] at h
    unfold named
    rw [live_modify, live_modify]
    split at h
    · cases h
      exact hlive
    · exact tree.entry_live _ _ _ h
  · intro holder j child above h hchild
    rw [entryOf_named hdir] at h
    rw [parentOf_named] at hchild
    split at h
    · rename_i he
      cases h
      obtain ⟨_, habove, hroot⟩ := hloose above hchild
      exact ⟨hroot, habove.trans he.1⟩
    · exact tree.entry_parent _ _ _ _ h hchild
  · intro holder a b child ha hb hchild
    rw [entryOf_named hdir] at ha hb
    rw [parentOf_named] at hchild
    split at ha <;> split at hb
    · rename_i h1 h2
      rw [← h1.2, ← h2.2]
    · cases ha
      exact absurd hb (hunnamed hchild _ _)
    · cases hb
      exact absurd ha (hunnamed hchild _ _)
    · exact tree.one_name _ _ _ _ ha hb hchild
  · intro child above h hroot _
    rw [parentOf_named] at h
    by_cases hchild : loose = some child
    · have hsame : child = id := by
        rcases honly with hnone | hsome
        · simp [hnone] at hchild
        · simpa [hchild] using hsome
      subst hsame
      obtain ⟨_, habove, _⟩ := hloose above h
      exact ⟨name, by rw [entryOf_named hdir, if_pos ⟨habove.symm, rfl⟩]⟩
    · obtain ⟨j, hj⟩ := tree.has_name child above h hroot hchild
      refine ⟨j, ?_⟩
      rw [entryOf_named hdir, if_neg, hj]
      rintro ⟨rfl, rfl⟩
      simp [hvacant] at hj
  · intro child hchild
    rw [parentOf_named] at hchild
    exact (tree.climbs child hchild).mono fun lower above _ h ↦ by rw [parentOf_named, h]
  · intro child shape hshape
    obtain ⟨old, hold, hlinks⟩ := links_modify hshape
    rw [hlinks, namings_named hdir hvacant, tree.links_exact child old hold]
    split_ifs <;> omega
  · intro holder j child h
    rw [entryOf_named hdir] at h
    split at h
    · rename_i he
      rw [← he.2]
      exact hvalid
    · exact tree.valid_names _ _ _ h

/-! ## A node loses a name -/

/-- The table without the entry `name`, which named `id`. -/
def unnamed (t : ExtTreeMap ι (Shape ι ν names) order) (dir : ι) (name : ν) (id : ι) :
    ExtTreeMap ι (Shape ι ν names) order :=
  (t.modify dir (Shape.withEntries (·.erase name))).modify id (Shape.withLinks (· - 1))

theorem parentOf_unnamed (j : ι) : parentOf (unnamed t dir name id) j = parentOf t j := by
  unfold unnamed
  rw [parentOf_modify (Shape.parent_withLinks _), parentOf_modify (Shape.parent_withEntries _)]

theorem entryOf_unnamed (holder : ι) (j : ν) : entryOf (unnamed t dir name id) holder j =
      if dir = holder ∧ name = j then none else entryOf t holder j := by
  unfold unnamed
  rw [entryOf_modify (Shape.entry_withLinks _)]
  simp only [entryOf, get_modify]
  by_cases hholder : dir = holder
  · subst hholder
    cases hshape : t[dir]? with
    | none => simp
    | some shape =>
      cases hx : shape.directory with
      | none => simp [Shape.entry, Shape.withEntries, hx]
      | some x => simp [Shape.entry, Shape.withEntries, hx, get_erase]
  · simp [hholder]

theorem namings_unnamed (he : entryOf t dir name = some id) (j : ι) :
    namings (unnamed t dir name id) j + (if id = j then 1 else 0) = namings t j := by
  unfold unnamed
  rw [namings_modify (Shape.namings_withLinks _)]
  obtain ⟨shape, x, hshape, hx⟩ := exists_directory (isSome_parentOf_of_entryOf he)
  have hthere : x.2[name]? = some id := by simpa [entryOf, hshape, Shape.entry, hx] using he
  have hmove := total_modify_add (fun _ (shape : Shape ι ν names) ↦ shape.namings j)
    t (Shape.withEntries (·.erase name)) hshape
  have hshrink : (shape.withEntries (·.erase name)).namings j + (if id = j then 1 else 0) =
    shape.namings j := by
    simp only [Shape.namings, Shape.withEntries, hx, map_some]
    exact total_erase_add (fun _ child ↦ if child = j then 1 else 0) x.2 hthere
  unfold namings
  omega

/-- What lost a name is loose. -/
theorem Tree.takeName (tree : Tree root valid none t) (he : entryOf t dir name = some id) :
    Tree root valid (some id) (unnamed t dir name id) := by
  have hkeep : ∀ holder j child, entryOf (unnamed t dir name id) holder j = some child →
      entryOf t holder j = some child := by
    intro holder j child h
    rw [entryOf_unnamed] at h
    split at h
    · cases h
    · exact h
  refine ⟨by rw [parentOf_unnamed, tree.root_parent], ?_, ?_, ?_, ?_, ?_, ?_, ?_, ?_⟩
  · intro holder j child h
    unfold unnamed
    rw [live_modify, live_modify]
    exact tree.entry_live _ _ _ (hkeep _ _ _ h)
  · intro holder j child above h hchild
    rw [parentOf_unnamed] at hchild
    exact tree.entry_parent _ _ _ _ (hkeep _ _ _ h) hchild
  · intro holder a b child ha hb hchild
    rw [parentOf_unnamed] at hchild
    exact tree.one_name _ _ _ _ (hkeep _ _ _ ha) (hkeep _ _ _ hb) hchild
  · intro child above h hroot hloose
    rw [parentOf_unnamed] at h
    obtain ⟨j, hj⟩ := tree.has_name child above h hroot (by simp)
    refine ⟨j, ?_⟩
    rw [entryOf_unnamed, if_neg, hj]
    rintro ⟨rfl, rfl⟩
    rw [he] at hj
    exact hloose hj
  · rintro child ⟨⟩ hchild holder j h
    rw [parentOf_unnamed] at hchild
    obtain ⟨above, habove⟩ := isSome_iff_exists.mp hchild
    have hholder := (tree.entry_parent _ _ _ _ (hkeep _ _ _ h) habove).2
    have hdir := (tree.entry_parent _ _ _ _ he habove).2
    have hsame : dir = holder := hdir.symm.trans hholder
    subst hsame
    have hname := tree.one_name _ _ _ _ he (hkeep _ _ _ h) hchild
    rw [entryOf_unnamed, if_pos ⟨rfl, hname⟩] at h
    cases h
  · intro child hchild
    rw [parentOf_unnamed] at hchild
    exact (tree.climbs child hchild).mono fun lower above _ h ↦ by rw [parentOf_unnamed, h]
  · intro child shape hshape
    obtain ⟨old, hold, hlinks⟩ := links_modify hshape
    rw [hlinks, tree.links_exact child old hold, ← namings_unnamed he child]
    split_ifs <;> omega
  · intro holder j child h
    exact tree.valid_names _ _ _ (hkeep _ _ _ h)

end Named

/-! ## A directory moves, and a node leaves -/

variable {target : ι}

/-- A loose directory moves below another directory that does not lie inside it. -/
theorem Tree.reparent (tree : Tree root valid (some id) t)
    (hdir : (parentOf t id).isSome) (htarget : Avoids (parentOf t) root id target)
    (hroot : id ≠ root) :
    Tree root valid (some id) (t.modify id (Shape.withParent target)) := by
  have he : ∀ holder name, entryOf (t.modify id (Shape.withParent target)) holder name =
      entryOf t holder name := entryOf_modify (Shape.entry_withParent target)
  have hnamings : ∀ j, namings (t.modify id (Shape.withParent target)) j =
      namings t j := namings_modify (Shape.namings_withParent target)
  have hself : parentOf (t.modify id (Shape.withParent target)) id = some target := by
    obtain ⟨shape, x, hshape, hx⟩ := exists_directory hdir
    simp [parentOf, hshape, Shape.parent, Shape.withParent, hx]
  have hj : ∀ j, j ≠ id →
      parentOf (t.modify id (Shape.withParent target)) j = parentOf t j := by
    intro j hne
    simp [parentOf, get_modify, Ne.symm hne]
  have hsome : ∀ j, (parentOf (t.modify id (Shape.withParent target)) j).isSome →
      (parentOf t j).isSome := by
    intro j h
    by_cases hid : j = id
    · rw [hid]
      exact hdir
    · rwa [hj j hid] at h
  refine ⟨by rw [hj root (Ne.symm hroot), tree.root_parent], ?_, ?_, ?_, ?_, ?_, ?_, ?_, ?_⟩
  · simpa only [he, live_modify] using tree.entry_live
  · intro holder name child above h hchild
    rw [he] at h
    rw [hj] at hchild
    · exact tree.entry_parent _ _ _ _ h hchild
    · rintro rfl
      exact tree.loose_unnamed _ rfl hdir _ _ h
  · intro holder a b child ha hb hchild
    rw [he] at ha hb
    exact tree.one_name _ _ _ _ ha hb (hsome child hchild)
  · intro child above h hchild hloose
    have hne : child ≠ id := by
      rintro rfl
      exact hloose rfl
    rw [hj child hne] at h
    obtain ⟨name, hname⟩ := tree.has_name child above h hchild hloose
    exact ⟨name, by rw [he, hname]⟩
  · rintro child ⟨⟩ _ holder name
    rw [he]
    exact tree.loose_unnamed id rfl hdir holder name
  · intro child hchild
    refine (tree.climbs child (hsome child hchild)).reparent htarget hself ?_
    intro lower above hlower h
    rw [hj lower hlower, h]
  · intro child shape hshape
    rw [hnamings]
    rcases modify_cases hshape with ⟨_, old, hold, rfl⟩ | ⟨_, hshape⟩
    · exact tree.links_exact child old hold
    · exact tree.links_exact child shape hshape
  · simpa only [he] using tree.valid_names

theorem isSome_parentOf_withParent (j : ι) :
    (parentOf (t.modify id (Shape.withParent target)) j).isSome = (parentOf t j).isSome := by
  simp only [parentOf, get_modify]
  split
  · cases hx : t[j]? with
    | none => rfl
    | some x => cases hdir : x.directory <;> simp [Shape.parent, Shape.withParent, hdir]
  · rfl

theorem eq_of_parentOf_withParent {above : ι}
    (h : parentOf (t.modify id (Shape.withParent target)) id = some above) : above = target := by
  simp only [parentOf, get_modify, if_true] at h
  cases hx : t[id]? with
  | none => simp [hx] at h
  | some x => cases hdir : x.directory <;> simp_all [Shape.parent, Shape.withParent]

/-- What is no directory has no parent to change. -/
theorem modify_withParent_eq_self (h : parentOf t id = none) :
    t.modify id (Shape.withParent target) = t := by
  apply modify_eq_self
  intro x hx
  cases hdir : x.directory with
  | none => exact Shape.ext rfl (by simp [Shape.withParent, hdir])
  | some dir => simp [parentOf, hx, Shape.parent, hdir] at h

/-- The table after a node moved from one entry to another. -/
def moved (t : ExtTreeMap ι (Shape ι ν names) order) (source : ι) (old : ν) (target : ι) (new : ν)
    (id : ι) : ExtTreeMap ι (Shape ι ν names) order :=
  named ((unnamed t source old id).modify id (Shape.withParent target)) target new id

theorem isSome_parentOf_moved {source : ι} {old new : ν} (j : ι) :
    (parentOf (moved t source old target new id) j).isSome = (parentOf t j).isSome := by
  unfold moved
  rw [parentOf_named, isSome_parentOf_withParent, parentOf_unnamed]

/-- A node moves to a free entry, a directory to one that does not lie inside it. -/
theorem Tree.move {source : ι} {old new : ν} (tree : Tree root valid none t)
    (he : entryOf t source old = some id) (htarget : (parentOf t target).isSome)
    (hvacant : entryOf t target new = none) (hvalid : valid new)
    (hoff : (parentOf t id).isSome → Avoids (parentOf t) root id target) :
    Tree root valid none (moved t source old target new id) := by
  have htaken := tree.takeName he
  have hparents : parentOf (unnamed t source old id) = parentOf t := funext parentOf_unnamed
  have hmoved :
    Tree root valid (some id) ((unnamed t source old id).modify id (Shape.withParent target)) := by
    cases hparent : parentOf t id with
    | none =>
      rw [modify_withParent_eq_self (by rw [hparents, hparent])]
      exact htaken
    | some above =>
      refine htaken.reparent ?_ ?_ (tree.entry_parent _ _ _ _ he hparent).1
      · simp [hparents, hparent]
      · rw [hparents]
        exact hoff (by simp [hparent])
  refine hmoved.giveName ?_ ?_ hvalid ?_ ?_ (.inr rfl)
  · rw [isSome_parentOf_withParent, hparents]
    exact htarget
  · rw [entryOf_modify (Shape.entry_withParent target), entryOf_unnamed]
    split
    · rfl
    · exact hvacant
  · exact live_modify.mpr (live_modify.mpr (live_modify.mpr (tree.entry_live _ _ _ he)))
  · intro above habove
    refine ⟨rfl, eq_of_parentOf_withParent habove, ?_⟩
    have hsome : (parentOf t id).isSome := by
      rw [← hparents, ← isSome_parentOf_withParent, habove]
      rfl
    obtain ⟨before, hold⟩ := isSome_iff_exists.mp hsome
    exact (tree.entry_parent _ _ _ _ he hold).1

/-- A node that nothing names leaves; a directory has to be empty for that. -/
theorem Tree.leave (tree : Tree root valid loose t) (hshape : t[id]? = some shape)
    (hlinks : shape.links = 0)
    (hempty : ∀ name, shape.entry name = none) (honly : loose = none ∨ loose = some id) :
    Tree root valid none (t.erase id) := by
  have hexact := tree.links_exact id shape hshape
  have hroot : id ≠ root := by
    intro hroot
    rw [if_pos hroot] at hexact
    omega
  have hunnamed : ∀ holder name, entryOf t holder name ≠ some id :=
    namings_eq_zero_iff.mp (by omega)
  have he : ∀ holder name, entryOf (t.erase id) holder name = entryOf t holder name := by
    intro holder name
    simp only [entryOf, get_erase]
    split
    · rename_i hid
      simp [← hid, hshape, hempty]
    · rfl
  have hparent : ∀ j, j ≠ id → parentOf (t.erase id) j = parentOf t j := by
    intro j hne
    simp [parentOf, Ne.symm hne]
  have hsome : ∀ j above, parentOf (t.erase id) j = some above →
      j ≠ id ∧ parentOf t j = some above := by
    intro j above h
    have hne : j ≠ id := by
      rintro rfl
      simp [parentOf] at h
    exact ⟨hne, by rw [← hparent j hne, h]⟩
  have hnamings : ∀ j, namings (t.erase id) j = namings t j := by
    intro j
    have hzero : shape.namings j = 0 := Shape.namings_eq_zero_iff.mpr (by simp [hempty])
    have hmove := total_erase_add (fun _ (shape : Shape ι ν names) ↦ shape.namings j) t hshape
    unfold namings
    omega
  have hstays : ∀ j, j ≠ id → loose ≠ some j := by
    intro j hne
    rcases honly with hnone | hsome
    · simp [hnone]
    · rw [hsome]
      simpa using Ne.symm hne
  -- Whatever has the node for a parent has a name in it.
  have hleaf : ∀ lower, lower ≠ id → parentOf t lower ≠ some id := by
    intro lower hne h
    by_cases hlower : lower = root
    · rw [hlower, tree.root_parent] at h
      exact hroot (some.inj h).symm
    · obtain ⟨name, hname⟩ := tree.has_name lower id h hlower (hstays lower hne)
      simp [entryOf, hshape, hempty] at hname
  refine ⟨by rw [hparent root (Ne.symm hroot), tree.root_parent], ?_, ?_, ?_, ?_, by simp, ?_, ?_, ?_⟩
  · intro holder name child h
    rw [he] at h
    obtain ⟨x, hx⟩ := tree.entry_live _ _ _ h
    refine ⟨x, ?_⟩
    rw [get_erase, if_neg, hx]
    rintro rfl
    exact hunnamed _ _ h
  · intro holder name child above h hchild
    rw [he] at h
    exact tree.entry_parent _ _ _ _ h (hsome child above hchild).2
  · intro holder a b child ha hb hchild
    rw [he] at ha hb
    obtain ⟨above, habove⟩ := isSome_iff_exists.mp hchild
    exact tree.one_name _ _ _ _ ha hb (by simp [(hsome child above habove).2])
  · intro child above h hchild _
    obtain ⟨hne, habove⟩ := hsome child above h
    obtain ⟨name, hname⟩ := tree.has_name child above habove hchild (hstays child hne)
    exact ⟨name, by rw [he, hname]⟩
  · intro child hchild
    obtain ⟨above, habove⟩ := isSome_iff_exists.mp hchild
    obtain ⟨hne, hold⟩ := hsome child above habove
    exact (tree.climbs child (by simp [hold])).prune hleaf hne hparent
  · intro child x hx
    rw [hnamings]
    exact tree.links_exact child x (get_of_erase hx).2
  · simpa only [he] using tree.valid_names

end DotnetPal.DirectoryTree
