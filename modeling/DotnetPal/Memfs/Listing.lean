import DotnetPal.Memfs.Hearing

/-!
# What a directory lists, and replaying news of it

The listing of a directory says for each name whether it names a directory. The events about names
turn the listing from before into the one after when they are replayed: a creation or an arrival
puts its name, whatever had it, and a deletion or a departure takes it out.
-/

open Std Function

namespace DotnetPal.Memfs

open DirectoryTree

attribute [local instance] lexOrd

/-- The names of a directory, each with whether it names a directory. -/
abbrev Listing := Bytes → Option Bool

namespace Listing

/-- What one event does to a listing. -/
def heard (listing : Listing) (event : UInt32 × Bytes) : Listing :=
  if event.1 &&& (Watches.create ||| Watches.movedTo) ≠ 0 then
    update listing event.2 (some (event.1 &&& Watches.directory ≠ 0))
  else update listing event.2 none

def replay (news : News) (listing : Listing) : Listing := news.foldl heard listing

theorem replay_append (a b : News) (listing : Listing) :
    replay (a ++ b) listing = replay b (replay a listing) := List.foldl_append

theorem heard_put {listing : Listing} {kinds : UInt32} {dir : Bool} {name : Bytes}
    (hput : kinds &&& (Watches.create ||| Watches.movedTo) ≠ 0)
    (hmark : decide (kinds &&& Watches.directory ≠ 0) = dir) :
    listing.heard (kinds, name) = update listing name (some dir) := by
  rw [heard, if_pos hput, hmark]

theorem heard_take {listing : Listing} {kinds : UInt32} {name : Bytes}
    (htake : kinds &&& (Watches.create ||| Watches.movedTo) = 0) :
    listing.heard (kinds, name) = update listing name none := by
  rw [heard, if_neg (not_not.mpr htake)]

theorem heard_create (listing : Listing) (dir : Bool) (name : Bytes) :
    listing.heard (Watches.create ||| mark dir, name) = update listing name (some dir) :=
  heard_put (by cases dir <;> decide) (by cases dir <;> decide)

theorem heard_movedTo (listing : Listing) (dir : Bool) (name : Bytes) :
    listing.heard (Watches.movedTo ||| mark dir, name) = update listing name (some dir) :=
  heard_put (by cases dir <;> decide) (by cases dir <;> decide)

theorem heard_delete (listing : Listing) (dir : Bool) (name : Bytes) :
    listing.heard (Watches.delete ||| mark dir, name) = update listing name none :=
  heard_take (by cases dir <;> decide)

theorem heard_movedFrom (listing : Listing) (dir : Bool) (name : Bytes) :
    listing.heard (Watches.movedFrom ||| mark dir, name) = update listing name none :=
  heard_take (by cases dir <;> decide)

end Listing

namespace Core

variable {core next : Core} {id p : ℕ} {name : Bytes}

/-- What a directory lists. -/
def listing (core : Core) (dir : ℕ) : Listing := fun name ↦
  (core.child? dir name).map fun id ↦ (core.parent? id).isSome

theorem listing_congr (he : ∀ dir name, next.child? dir name = core.child? dir name)
    (hparent : ∀ id, (next.parent? id).isSome = (core.parent? id).isSome) (dir : ℕ) :
    next.listing dir = core.listing dir := by
  funext name
  simp only [listing, he, hparent]

theorem listing_congr_shapes (h : next.shapes = core.shapes) (dir : ℕ) :
    next.listing dir = core.listing dir :=
  listing_congr (fun _ _ ↦ by rw [child?, child?, h]) (fun _ ↦ by rw [parent?, parent?, h]) dir

/-- A node that is no directory may go without a trace in any listing. -/
theorem listing_reaped (h : core.parent? id = none) (dir : ℕ) :
    (core.reaped id).listing dir = core.listing dir := by
  refine listing_congr (fun holder name ↦ ?_) (fun j ↦ ?_) dir
  · by_cases hholder : id = holder
    · subst hholder
      have hold : core.child? id name = none := entryOf_of_parentOf_none h name
      cases hkept : core.nodes[id]? with
      | none => simp [reaped, hkept]
      | some kept =>
        by_cases hfree : kept.links = 0 ∧ kept.opens = 0 ∧ kept.maps = 0
        · rw [hold, reaped_of_free hkept hfree]
          simp [child?, entryOf, get_shapes]
        · simp [reaped, hkept, hfree]
    · exact child?_congr (get_reaped_of_ne hholder) name
  · by_cases hj : id = j
    · subst hj
      cases hkept : core.nodes[id]? with
      | none => simp [reaped, hkept]
      | some kept =>
        by_cases hfree : kept.links = 0 ∧ kept.opens = 0 ∧ kept.maps = 0
        · rw [h, reaped_of_free hkept hfree]
          simp [parent?, parentOf, get_shapes]
        · simp [reaped, hkept, hfree]
    · rw [parent?_congr (get_reaped_of_ne hj)]

theorem listing_linked (hparent : (core.parent? p).isSome) (hplain : core.parent? id = none) (dir : ℕ) :
    (core.linked p name id).listing dir =
      if dir = p then update (core.listing dir) name (some false)
      else core.listing dir := by
  have he : ∀ holder j, (core.linked p name id).child? holder j =
      if p = holder ∧ name = j then some id else core.child? holder j := by
    intro holder j
    rw [child?, shapes_linked, entryOf_named hparent]
    rfl
  have hparents : ∀ j, (core.linked p name id).parent? j = core.parent? j := by
    intro j
    rw [parent?, shapes_linked, parentOf_named]
    rfl
  funext j
  simp only [listing, he, hparents]
  by_cases hdir : dir = p
  · subst hdir
    by_cases hname : j = name
    · subst hname
      simp [hplain]
    · simp [listing, Ne.symm hname, update_of_ne hname]
  · simp [listing, hdir, Ne.symm hdir]

theorem listing_attached {body : Body} (sound : core.Sound none) (hparent : (core.parent? p).isSome)
    (hbody : NewBody p body) (dir : ℕ) :
    (core.attached p name body).listing dir =
      if dir = p then update (core.listing dir) name (some body.directory?.isSome)
      else core.listing dir := by
  have hnew := sound.new_free
  have hne : p ≠ core.nextId := Nat.ne_of_lt (sound.parent_below hparent)
  have hshapes := shapes_attached name body hne hnew
  have hempty := hbody.facts.1
  have hparents : ∀ j, j ≠ core.nextId → (core.attached p name body).parent? j = core.parent? j := by
    intro j hj
    rw [parent?, hshapes, parentOf_named]
    simp [parent?, parentOf, Ne.symm hj]
  have hself : ((core.attached p name body).parent? core.nextId).isSome = body.directory?.isSome := by
    rw [parent?, hshapes, parentOf_named]
    simp [parentOf, Shape.parent]
  have hdir : (parentOf (core.shapes.insert core.nextId ⟨0, body.directory?⟩) p).isSome := by
    simpa [parent?, parentOf, Ne.symm hne] using hparent
  have he : ∀ holder j, (core.attached p name body).child? holder j =
      if p = holder ∧ name = j then some core.nextId else core.child? holder j := by
    intro holder j
    rw [child?, hshapes, entryOf_named hdir]
    by_cases hholder : core.nextId = holder
    · subst hholder
      simp [child?, entryOf, hnew, hempty]
    · simp [child?, entryOf, hholder]
  have hlive : ∀ holder j child, core.child? holder j = some child → child ≠ core.nextId := by
    rintro holder j child hchild rfl
    obtain ⟨shape, hshape⟩ := sound.tree.entry_live _ _ _ hchild
    rw [hnew] at hshape
    cases hshape
  have hold : ∀ holder j, (core.child? holder j).map
      (fun child ↦ ((core.attached p name body).parent? child).isSome) = core.listing holder j := by
    intro holder j
    unfold listing
    cases hchild : core.child? holder j with
    | none => rfl
    | some child => rw [Option.map_some, Option.map_some, hparents child (hlive _ _ _ hchild)]
  funext j
  simp only [listing, he]
  by_cases hholder : dir = p
  · subst hholder
    by_cases hname : j = name
    · subst hname
      simp [hself]
    · have hskip : ¬name = j := Ne.symm hname
      simp only [true_and, if_neg hskip, if_true, update_of_ne hname]
      exact hold dir j
  · have hskip : ¬(p = dir ∧ name = j) := fun h ↦ hholder h.1.symm
    simp only [if_neg hskip, if_neg hholder]
    exact hold dir j

/-- Taking a name away changes that entry only. -/
theorem child?_detached_eq (hempty : (core.parent? id).isSome → ∀ j, core.child? id j = none)
    (holder : ℕ) (wanted : Bytes) :
    (core.detached p name id).child? holder wanted =
      if p = holder ∧ name = wanted then none else core.child? holder wanted := by
  by_cases hholder : id = holder
  · subst hholder
    have hold : core.child? id wanted = none := by
      cases hparent : core.parent? id with
      | none => exact entryOf_of_parentOf_none hparent wanted
      | some above => exact hempty (by rw [hparent]; rfl) wanted
    have hunnamed : (core.unnamed p name id).child? id wanted = none := by
      rw [child?, shapes_unnamed, entryOf_unnamed]
      split
      · rfl
      · exact hold
    have hnew : ((core.unnamed p name id).reaped id).child? id wanted = none := by
      cases hkept : (core.unnamed p name id).nodes[id]? with
      | none => rw [reaped, hkept]; exact hunnamed
      | some kept =>
        by_cases hfree : kept.links = 0 ∧ kept.opens = 0 ∧ kept.maps = 0
        · rw [reaped_of_free hkept hfree]
          simp [child?, entryOf, get_shapes]
        · rw [reaped, hkept]
          simp only [if_neg hfree]
          exact hunnamed
    rw [hold, ite_self]
    exact hnew
  · exact child?_detached hholder

/-- What is no directory is none after it lost a name. -/
theorem parent?_detached_of_none (h : core.parent? id = none) :
    (core.detached p name id).parent? id = none := by
  have hunnamed : (core.unnamed p name id).parent? id = none := by
    rw [parent?, shapes_unnamed, parentOf_unnamed]
    exact h
  change ((core.unnamed p name id).reaped id).parent? id = none
  cases hkept : (core.unnamed p name id).nodes[id]? with
  | none => rw [reaped, hkept]; exact hunnamed
  | some kept =>
    by_cases hfree : kept.links = 0 ∧ kept.opens = 0 ∧ kept.maps = 0
    · rw [reaped_of_free hkept hfree]
      simp [parent?, parentOf, get_shapes]
    · rw [reaped, hkept]
      simp only [if_neg hfree]
      exact hunnamed

variable (sound : core.Sound none)
include sound

theorem listing_detached (he : core.child? p name = some id)
    (hempty : (core.parent? id).isSome → ∀ j, core.child? id j = none) (dir : ℕ) :
    (core.detached p name id).listing dir =
      if dir = p then update (core.listing dir) name none
      else core.listing dir := by
  -- A directory has one name, so what still has one is no directory.
  have hstill : ∀ holder j, ¬(p = holder ∧ name = j) → core.child? holder j = some id →
      core.parent? id = none := by
    intro holder j hskip hj
    by_contra hsome
    obtain ⟨above, habove⟩ := Option.ne_none_iff_exists'.mp hsome
    have ha := (sound.tree.entry_parent _ _ _ _ he habove).2
    have hb := (sound.tree.entry_parent _ _ _ _ hj habove).2
    have hsame : p = holder := ha.symm.trans hb
    subst hsame
    have hdir : (parentOf core.shapes id).isSome := by
      rw [show parentOf core.shapes id = some above from habove]
      rfl
    exact hskip ⟨rfl, sound.tree.one_name _ _ _ _ he hj hdir⟩
  have hold : ∀ holder j, ¬(p = holder ∧ name = j) →
      (core.detached p name id).listing holder j = core.listing holder j := by
    intro holder j hskip
    simp only [listing, child?_detached_eq hempty, if_neg hskip]
    cases hchild : core.child? holder j with
    | none => rfl
    | some child =>
      by_cases hsame : id = child
      · subst hsame
        have hnone := hstill holder j hskip hchild
        simp [parent?_detached_of_none hnone, hnone]
      · simp [parent?_detached hsame]
  funext j
  by_cases hholder : dir = p
  · subst hholder
    rw [if_pos rfl]
    by_cases hname : j = name
    · subst hname
      simp [listing, child?_detached_eq hempty]
    · rw [update_of_ne hname]
      exact hold _ _ fun h ↦ hname h.2.symm
  · rw [if_neg hholder]
    exact hold _ _ fun h ↦ hholder h.1.symm

theorem Sound.links_pos {dir : ℕ} (he : core.child? dir name = some id) :
    ∃ shape, core.shapes[id]? = some shape ∧ 0 < shape.links := by
  obtain ⟨shape, hshape⟩ := sound.tree.entry_live _ _ _ he
  refine ⟨shape, hshape, ?_⟩
  rw [sound.tree.links_exact id shape hshape]
  have hpos : namings core.shapes id ≠ 0 := fun hzero ↦ namings_eq_zero_iff.mp hzero dir name he
  omega

theorem listing_moved {source target : ℕ} {old new : Bytes}
    (he : core.child? source old = some id) (htarget : (core.parent? target).isSome) (dir : ℕ) :
    (core.moved source old target new id).listing dir =
      if dir = target then
        update (if dir = source then update (core.listing dir) old none
          else core.listing dir) new (some (core.parent? id).isSome)
      else if dir = source then update (core.listing dir) old none
      else core.listing dir := by
  obtain ⟨shape, hshape, hlinks⟩ := sound.links_pos he
  have hshapes := shapes_moved source old target new hshape hlinks
  have hparents : ∀ j, ((core.moved source old target new id).parent? j).isSome =
    (core.parent? j).isSome := by
    intro j
    rw [parent?, hshapes, isSome_parentOf_moved]
    rfl
  have hentries : ∀ holder j, (core.moved source old target new id).child? holder j =
      if target = holder ∧ new = j then some id
      else if source = holder ∧ old = j then none else core.child? holder j := by
    intro holder j
    have hdir : (parentOf ((DirectoryTree.unnamed core.shapes source old id).modify id
        (Shape.withParent target)) target).isSome := by
      rw [isSome_parentOf_withParent, parentOf_unnamed]
      exact htarget
    rw [child?, hshapes, DirectoryTree.moved, entryOf_named hdir,
      entryOf_modify (Shape.entry_withParent target), entryOf_unnamed]
    rfl
  funext j
  simp only [listing, hentries, hparents]
  by_cases hnew : target = dir ∧ new = j
  · obtain ⟨rfl, rfl⟩ := hnew
    simp
  · by_cases hold : source = dir ∧ old = j
    · obtain ⟨rfl, rfl⟩ := hold
      rw [if_neg hnew, if_pos ⟨rfl, rfl⟩]
      by_cases hsame : source = target
      · have hne : old ≠ new := fun h ↦ hnew ⟨hsame.symm, h.symm⟩
        simp [hsame, update_of_ne hne]
      · simp [hsame]
    · rw [if_neg hnew, if_neg hold]
      by_cases ha : dir = target <;> by_cases hb : dir = source
      · have hnames : j ≠ new ∧ j ≠ old :=
          ⟨fun h ↦ hnew ⟨ha.symm, h.symm⟩, fun h ↦ hold ⟨hb.symm, h.symm⟩⟩
        rw [if_pos ha, if_pos hb, update_of_ne hnames.1, update_of_ne hnames.2]
        rfl
      · have hname : j ≠ new := fun h ↦ hnew ⟨ha.symm, h.symm⟩
        rw [if_pos ha, if_neg hb, update_of_ne hname]
        rfl
      · have hname : j ≠ old := fun h ↦ hold ⟨hb.symm, h.symm⟩
        rw [if_neg ha, if_pos hb, update_of_ne hname]
        rfl
      · rw [if_neg ha, if_neg hb]
        rfl

end Core

end DotnetPal.Memfs
