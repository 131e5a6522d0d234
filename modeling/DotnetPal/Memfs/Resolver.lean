import DotnetPal.Memfs.Runs

/-!
# What a walk means

The reference for a walk is a recursion on the text of a path: it takes one component after the
other, and where it follows a link it goes on with the target of the link in front of the text that
is left. A walk keeps those texts apart in a bounded stack. It is the same resolution because the
text behind a name begins with a slash, so that no component runs over the seam of two texts.
-/

open Std List

namespace DotnetPal.Memfs

open Programs DirectoryTree Pending

attribute [local instance] lexOrd

/-! ## The reference -/

/-- The first component of a text and the text behind it. -/
def cut (text : Bytes) : Option (Bytes × Bytes) :=
  match text.dropWhile (· == slash) with
  | [] => none
  | first :: tail => some ((first :: tail).takeWhile (· != slash), (first :: tail).dropWhile (· != slash))

/-- Whether a link is replaced by its target, given the text behind its name: always, if a slash
follows, or if another component follows. -/
def Last.replaces : Last → Bytes → Bool
  | .follow, _ => true
  | .keep, rest => !rest.isEmpty
  | .entry, rest => (cut rest).isSome
  | .create, rest => (cut rest).isSome

/-- A text that goes on behind a name: it is empty or begins with a slash. -/
def Seam (text : Bytes) : Prop := ∀ byte ∈ text.head?, byte = slash

theorem seam_dropWhile (text : Bytes) : Seam (text.dropWhile (· != slash)) := by
  intro byte hbyte
  have hhead := head?_dropWhile_not (· != slash) text
  rw [Option.mem_def.mp hbyte] at hhead
  simpa using hhead

variable {text : Bytes}

theorem cut_eq_none_iff : cut text = none ↔ text.dropWhile (· == slash) = [] := by
  unfold cut
  split
  · rename_i hnil
    exact iff_of_true rfl hnil
  · rename_i hcons
    rw [hcons]
    exact iff_of_false nofun nofun

theorem cut_of_ne (h : text.dropWhile (· == slash) ≠ []) :
    cut text = some ((text.dropWhile (· == slash)).takeWhile (· != slash),
      (text.dropWhile (· == slash)).dropWhile (· != slash)) := by
  unfold cut
  split
  · contradiction
  · rename_i hcons
    rw [hcons]

variable {name : Bytes}

variable {rest : Bytes}

/-- A component is not empty, and what follows it is shorter. -/
theorem cut_eq_some (h : cut text = some (name, rest)) :
    name ≠ [] ∧ slash ∉ name ∧ rest.length < text.length ∧ Seam rest := by
  have hne : text.dropWhile (· == slash) ≠ [] := fun hnil ↦ by simp [cut_eq_none_iff.mpr hnil] at h
  rw [cut_of_ne hne] at h
  obtain ⟨rfl, rfl⟩ := Prod.mk.inj (Option.some.inj h)
  obtain ⟨a, tail, hcons⟩ := exists_cons_of_ne_nil hne
  have ha : (a != slash) = true := by
    have hhead := head?_dropWhile_not (· == slash) text
    rw [hcons] at hhead
    simpa [bne, Bool.not_eq_true] using hhead
  have hname : (text.dropWhile (· == slash)).takeWhile (· != slash) ≠ [] := by
    rw [hcons]
    simp [takeWhile, ha]
  refine ⟨hname, fun hmem ↦ ?_, ?_, seam_dropWhile _⟩
  · simpa using mem_takeWhile_imp hmem
  · have hlen :=
      congrArg length (takeWhile_append_dropWhile (p := (· != slash)) (l := text.dropWhile (· == slash)))
    have hpos := length_pos_of_ne_nil hname
    have hsuffix := (dropWhile_suffix (l := text) (· == slash)).length_le
    rw [length_append] at hlen
    omega

variable {t : Bytes}

namespace State

/-- The end of a path at a name. -/
def finish (s : State) (last : Last) (dir : ℕ) (name : Bytes) (node : Option ℕ) (rest : Bytes) :
    Result Place := do
  match node with
  | some id =>
    -- A slash behind a name asks for a directory, except where the name is to be created.
    if !rest.isEmpty && last != .create then
      let isDirectory ← s.isDirectory id
      if isDirectory then return ⟨dir, name, node, !rest.isEmpty⟩ else .error Error.notDirectory
    else return ⟨dir, name, node, !rest.isEmpty⟩
  | none => return ⟨dir, name, none, !rest.isEmpty⟩

/-- Resolves a text in a directory, following so many links at most. -/
def resolve (s : State) (last : Last) (links dir : ℕ) (text : Bytes) : Result Place :=
  match h : cut text with
  | none => .ok ⟨dir, [], some dir, !text.isEmpty⟩
  | some (name, rest) =>
    have := (cut_eq_some h).2.2.1
    if name = dot then do
      let _ ← s.entries dir
      s.resolve last links dir rest
    else if name = dotDot then
      if dir = root then s.resolve last links root rest
      else do
        let above ← s.parent dir
        s.resolve last links above rest
    else if name.length > Files.maxEntryName then .error Error.nameTooLong
    else do
      let entries ← s.entries dir
      match s.linkTarget entries[name]?, last.replaces rest with
      | some target, true =>
        match links with
        | 0 => .error Error.os
        | links + 1 => s.resolve last links (if startsWithSlash target then root else dir) (target ++ rest)
      | _, _ =>
        if (cut rest).isSome then do
          let next ← Result.required entries[name]? .notFound
          s.resolve last links next rest
        else s.finish last dir name entries[name]? rest
termination_by (links, text.length)

theorem resolve_of_none {s : State} {last : Last} {links dir : ℕ} (h : cut text = none) :
    s.resolve last links dir text = .ok ⟨dir, [], some dir, !text.isEmpty⟩ := by
  rw [resolve]
  split
  · rfl
  · simp_all

/-- The next component, in the words of the definition. -/
theorem resolve_of_cut {s : State} {last : Last} {links dir : ℕ} (h : cut text = some (name, rest)) :
    s.resolve last links dir text = (
      if name = dot then do
        let _ ← s.entries dir
        s.resolve last links dir rest
      else if name = dotDot then
        if dir = root then s.resolve last links root rest
        else do
          let above ← s.parent dir
          s.resolve last links above rest
      else if name.length > Files.maxEntryName then .error Error.nameTooLong
      else do
        let entries ← s.entries dir
        match s.linkTarget entries[name]?, last.replaces rest with
        | some t, true =>
          match links with
          | 0 => .error Error.os
          | links + 1 => s.resolve last links (if startsWithSlash t then root else dir) (t ++ rest)
        | _, _ =>
          if (cut rest).isSome then do
            let next ← Result.required entries[name]? .notFound
            s.resolve last links next rest
          else s.finish last dir name entries[name]? rest) := by
  rw [resolve]
  split
  · simp_all
  · rename_i hcut
    rw [h] at hcut
    obtain ⟨rfl, rfl⟩ := Prod.mk.inj (Option.some.inj hcut)
    rfl

section

variable {s : State} {last : Last} {links dir : ℕ} {text name rest : Bytes} {entries : Entries}

/-- A component that is a name and not one of the two that stand for a directory. -/
structure Plain (name : Bytes) : Prop where
  ne_dot : name ≠ dot
  ne_dotDot : name ≠ dotDot
  length_le : name.length ≤ Files.maxEntryName

/-- A name that is no link to follow is the directory of what comes next, or the end. -/
theorem resolve_of_kept (hcut : cut text = some (name, rest)) (hplain : Plain name)
    (hentries : s.entries dir = .ok entries)
    (hkept : s.linkTarget entries[name]? = none ∨ last.replaces rest = false) :
    s.resolve last links dir text = (
      if (cut rest).isSome then do
        let next ← Result.required entries[name]? .notFound
        s.resolve last links next rest
      else s.finish last dir name entries[name]? rest) := by
  rw [resolve_of_cut hcut, if_neg hplain.ne_dot, if_neg hplain.ne_dotDot,
    if_neg (Nat.not_lt.mpr hplain.length_le), hentries]
  change (match s.linkTarget entries[name]?, last.replaces rest with | some _, true => _ | _, _ => _) = _
  rcases hkept with hnone | hfalse
  · rw [hnone]
  · rw [hfalse]
    cases s.linkTarget entries[name]? <;> rfl

/-- A link to follow is replaced by its target. -/
theorem resolve_of_link (hcut : cut text = some (name, rest)) (hplain : Plain name)
    (hentries : s.entries dir = .ok entries) (htarget : s.linkTarget entries[name]? = some t)
    (hreplaces : last.replaces rest = true) :
    s.resolve last links dir text = (
      match links with
      | 0 => .error Error.os
      | links + 1 => s.resolve last links (if startsWithSlash t then root else dir) (t ++ rest)) := by
  rw [resolve_of_cut hcut, if_neg hplain.ne_dot, if_neg hplain.ne_dotDot,
    if_neg (Nat.not_lt.mpr hplain.length_le), hentries]
  change (match s.linkTarget entries[name]?, last.replaces rest with | some _, true => _ | _, _ => _) = _
  rw [htarget, hreplaces]

end

/-- Resolves a path in the working directory, or from the root if it begins there. -/
def resolvePath (s : State) (path : Bytes) (last : Last) : Result Place := do
  let start ← s.walkStart path
  s.resolve last maxLinks start path

end State

/-! ## Texts and their seams -/

variable {texts : List Bytes}

theorem seam_flatten (h : ∀ text ∈ texts, Seam text) : Seam texts.flatten := by
  induction texts with
  | nil => simp [Seam]
  | cons text texts ih =>
    cases text with
    | nil => exact ih fun j hj ↦ h j (mem_cons_of_mem _ hj)
    | cons byte text =>
      intro a ha
      exact h _ mem_cons_self a ha

/-- Slashes in front of a text do not change its components. -/
theorem cut_append_of_slashes (htext : text.dropWhile (· == slash) = []) (more : Bytes) :
    cut (text ++ more) = cut more := by
  simp [cut, dropWhile_append, htext]

/-- No component runs over a seam. -/
theorem cut_append_of_seam {more : Bytes} (htext : text.dropWhile (· == slash) ≠ []) (hmore : Seam more) :
    cut (text ++ more) = some ((text.dropWhile (· == slash)).takeWhile (· != slash),
      (text.dropWhile (· == slash)).dropWhile (· != slash) ++ more) := by
  have hdrop : (text ++ more).dropWhile (· == slash) = text.dropWhile (· == slash) ++ more := by
    simp [dropWhile_append, htext]
  have hstop : more.takeWhile (· != slash) = [] ∧ more.dropWhile (· != slash) = more := by
    cases more with
    | nil => simp
    | cons byte more =>
      obtain rfl : byte = slash := hmore byte rfl
      simp
  rw [cut_of_ne (by simp [hdrop, htext]), hdrop]
  generalize text.dropWhile (· == slash) = rest
  have htake : (rest ++ more).takeWhile (· != slash) = rest.takeWhile (· != slash) := by
    rw [takeWhile_append]
    split
    · rename_i hall
      rw [hstop.1, append_nil]
      exact ((List.takeWhile_prefix _).eq_of_length hall).symm
    · rfl
  have hleft : (rest ++ more).dropWhile (· != slash) = rest.dropWhile (· != slash) ++ more := by
    rw [dropWhile_append]
    split
    · rename_i hall
      rw [isEmpty_iff.mp hall, hstop.2, nil_append]
    · rfl
  rw [htake, hleft]

namespace Pending

variable {texts : List Bytes} {seen : Bool}

/-- Without a component left, a slash was the last thing seen if any text is. -/
theorem nextOf_of_none (h : cut texts.flatten = none) (hseams : ∀ text ∈ texts.tail, Seam text) :
    nextOf texts seen = (none, [], seen || !texts.flatten.isEmpty) := by
  induction texts generalizing seen with
  | nil => simp [nextOf]
  | cons text texts ih =>
    have hbehind : Seam texts.flatten := seam_flatten hseams
    have htext : text.dropWhile (· == Memfs.slash) = [] := by
      by_contra hne
      rw [flatten_cons, cut_append_of_seam hne hbehind] at h
      cases h
    rw [flatten_cons, cut_append_of_slashes htext] at h
    simp only [nextOf, htext, isEmpty_nil, if_true]
    rw [ih h fun j hj ↦ hseams j (mem_of_mem_tail hj)]
    cases text <;> simp

/-- The next component of the texts is that of the text they make together. -/
theorem nextOf_of_cut (h : cut texts.flatten = some (name, rest))
    (hseams : ∀ text ∈ texts.tail, Seam text) :
    ∃ left, nextOf texts seen = (some name, left, false) ∧ left.flatten = rest ∧ ∀ text ∈ left,
      Seam text := by
  induction texts generalizing seen with
  | nil => simp [cut] at h
  | cons text texts ih =>
    have hbehind : Seam texts.flatten := seam_flatten hseams
    by_cases htext : text.dropWhile (· == Memfs.slash) = []
    · rw [flatten_cons, cut_append_of_slashes htext] at h
      simp only [nextOf, htext, isEmpty_nil, if_true]
      exact ih h fun j hj ↦ hseams j (mem_of_mem_tail hj)
    · rw [flatten_cons, cut_append_of_seam htext hbehind] at h
      obtain ⟨rfl, rfl⟩ := Prod.mk.inj (Option.some.inj h)
      refine ⟨(text.dropWhile (· == Memfs.slash)).dropWhile (· != Memfs.slash) :: texts,
        ?_, by simp, fun j hj ↦ ?_⟩
      · have hfull : ¬(text.dropWhile (· == Memfs.slash)).isEmpty = true := by simpa using htext
        simp only [nextOf, if_neg hfull]
      · rcases mem_cons.mp hj with rfl | hj
        · exact seam_dropWhile _
        · exact hseams j hj

/-- A walk enters a link where the resolution replaces it. -/
theorem follows_eq_replaces (pending : Pending) (last : Last) :
    pending.follows last = last.replaces pending.texts.flatten := by
  have hany : ∀ text : Bytes, text.any (· != Memfs.slash) = (cut text).isSome := by
    intro text
    rw [Bool.eq_iff_iff, Option.isSome_iff_ne_none, ne_eq, cut_eq_none_iff, dropWhile_eq_nil_iff]
    simp
  cases last with
  | follow | keep => rfl
  | entry | create => exact hany _

end Pending

namespace State

variable {s : State} {last : Last}

variable {parent : ℕ}

/-- A name that was found is the directory of the component that follows it, and the end of the path
if none does. -/
theorem walkOn_found {fuel entered : ℕ} {node : Option ℕ} (hseams : ∀ text ∈ texts, Seam text) :
    s.walkOn last (fuel + 1) ⟨parent, some (name, node), ⟨texts, entered, false⟩⟩ = (
      if (cut texts.flatten).isSome then do
        let next ← Result.required node .notFound
        s.walkOn last (fuel + 1) ⟨next, none, ⟨texts, entered, false⟩⟩
      else s.finish last parent name node texts.flatten) := by
  have htail : ∀ text ∈ texts.tail, Seam text := fun text htext ↦ hseams text (mem_of_mem_tail htext)
  cases hcut : cut texts.flatten with
  | none =>
    simp only [walkOn, walkStep, Pending.next, nextOf_of_none hcut htail, Bool.false_or, Option.isSome_none,
      Bool.false_eq_true, if_false]
    cases node with
    | none => rfl
    | some id =>
      simp only [arrive, finish]
      split
      · cases s.isDirectory id with
        | error fault => rfl
        | ok dir => cases dir <;> rfl
      · rfl
  | some cutted =>
    obtain ⟨component, rest⟩ := cutted
    obtain ⟨left, hnext, _⟩ : ∃ left, nextOf texts false = (some component, left, false) ∧ _ :=
      nextOf_of_cut hcut htail
    simp only [walkOn, walkStep, Pending.next, hnext, into, Option.isSome_some, if_true]
    cases node with
    | none | some => rfl

/-- A name that is not a link to follow is found. -/
theorem named_of_kept {pending : Pending} {entries : Entries} (hentries : s.entries parent = .ok entries)
    (hkept : s.linkTarget entries[name]? = none ∨ last.replaces pending.texts.flatten = false) :
    s.named last parent name pending = .ok ⟨parent, some (name, entries[name]?), pending⟩ := by
  simp only [named, hentries, follows_eq_replaces, bind, Except.bind]
  rcases hkept with hnone | hfalse
  · rw [hnone]
    rfl
  · rw [hfalse]
    cases s.linkTarget entries[name]? <;> rfl

/-- A link to follow is entered. -/
theorem named_of_link {pending : Pending} {entries : Entries}
    (hentries : s.entries parent = .ok entries) (htarget : s.linkTarget entries[name]? = some t)
    (hreplaces : last.replaces pending.texts.flatten = true) :
    s.named last parent name pending = (do
      let pending ← pending.enter t
      return ⟨if startsWithSlash t then root else parent, none, pending⟩) := by
  simp only [named, hentries, htarget, hreplaces, follows_eq_replaces, bind, Except.bind]
  rfl

/-- One component, and the walk from where it leads. -/
theorem walkOn_step {fuel entered : ℕ} {left : List Bytes} {seen : Bool}
    (h : nextOf texts seen = (some name, left, false)) :
    s.walkOn last (fuel + 1) ⟨parent, none, ⟨texts, entered, seen⟩⟩ =
      (s.component last parent name ⟨left, entered, false⟩ >>= s.walkOn last fuel) := by
  have hinto : into ⟨parent, none, ⟨texts, entered, seen⟩⟩ = .ok parent := rfl
  simp only [walkOn, walkStep, Pending.next, h, hinto]
  cases hcomponent : s.component last parent name ⟨left, entered, false⟩ with
  | error fault =>
    change (Sum.inl <$> s.component last parent name ⟨left, entered, false⟩ >>= _) = _
    rw [hcomponent]
    rfl
  | ok next =>
    change (Sum.inl <$> s.component last parent name ⟨left, entered, false⟩ >>= _) = _
    rw [hcomponent]
    rfl

/-- Walks that have so many steps left resolve their texts. -/
def Resolves (s : State) (last : Last) (fuel : ℕ) : Prop :=
  ∀ {parent entered : ℕ} {texts : List Bytes}, Pending.Bounded ⟨texts, entered, false⟩ →
    (∀ text ∈ texts.tail, Seam text) → left s.targets ⟨texts, entered, false⟩ < fuel →
    s.walkOn last fuel ⟨parent, none, ⟨texts, entered, false⟩⟩ =
      s.resolve last (maxLinks - entered) parent texts.flatten

section Step

variable {fuel parent entered : ℕ} {name : Bytes} {left : List Bytes} {entries : Entries}

variable (h : s.Resolves last fuel)
include h

/-- A walk that found a name goes on as the reference does. -/
theorem Resolves.kept (hbounded : Pending.Bounded ⟨left, entered, false⟩)
    (hleft : ∀ text ∈ left, Seam text) (hless : Pending.left s.targets ⟨left, entered, false⟩ < fuel)
    (node : Option ℕ) :
    s.walkOn last fuel ⟨parent, some (name, node), ⟨left, entered, false⟩⟩ = (
      if (cut left.flatten).isSome then do
        let next ← Result.required node .notFound
        s.resolve last (maxLinks - entered) next left.flatten
      else s.finish last parent name node left.flatten) := by
  obtain ⟨less, rfl⟩ := Nat.exists_eq_add_of_lt (Nat.zero_lt_of_lt hless)
  rw [walkOn_found hleft]
  have hnext : ∀ next, s.walkOn last (0 + less + 1) ⟨next, none, ⟨left, entered, false⟩⟩ =
      s.resolve last (maxLinks - entered) next left.flatten := fun next ↦
    h hbounded (fun text htext ↦ hleft text (mem_of_mem_tail htext)) hless
  simp only [hnext]

/-- A walk that enters a link goes on as the reference does. -/
theorem Resolves.link (hbounded : Pending.Bounded ⟨left, entered, false⟩)
    (hleft : ∀ text ∈ left, Seam text) (hless : Pending.left s.targets ⟨left, entered, false⟩ <
      fuel) (htarget : t.length ≤ s.targets) (dir : ℕ) :
    (do
      let pending ← enter ⟨left, entered, false⟩ t
      s.walkOn last fuel ⟨dir, none, pending⟩) = (
      match maxLinks - entered with
      | 0 => .error Error.os
      | links + 1 => s.resolve last links dir (t ++ left.flatten)) := by
  by_cases hfull : entered = maxLinks
  · have henter : enter ⟨left, entered, false⟩ t = .error Error.os := if_pos hfull
    rw [henter, hfull, Nat.sub_self]
    rfl
  · have hdepth : left.length ≤ entered + 1 := hbounded.1
    have hentered : entered ≤ maxLinks := hbounded.2
    have henter : enter ⟨left, entered, false⟩ t = .ok ⟨t :: left, entered + 1, false⟩ := by
      rw [enter, if_neg hfull, if_neg (by dsimp only; omega)]
    have hlinks : maxLinks - entered = maxLinks - (entered + 1) + 1 := by omega
    obtain ⟨hdone, hmore⟩ := (enter_yields hbounded t).of_ok henter
    rw [henter, hlinks]
    exact h hdone hleft ((hmore _ htarget).trans_lt hless)

/-- A component of a walk leads to where the reference goes on. -/
theorem Resolves.component (hroot : s.parent root = .ok root)
    (hcut : cut text = some (name, left.flatten)) (hbounded : Pending.Bounded ⟨left, entered, false⟩)
    (hleft : ∀ text ∈ left, Seam text) (hless : Pending.left s.targets ⟨left, entered, false⟩ < fuel) :
    (s.component last parent name ⟨left, entered, false⟩ >>= s.walkOn last fuel) =
      s.resolve last (maxLinks - entered) parent text := by
  have hgo : ∀ dir, s.walkOn last fuel ⟨dir, none, ⟨left, entered, false⟩⟩ =
      s.resolve last (maxLinks - entered) dir left.flatten := fun dir ↦
    h hbounded (fun text htext ↦ hleft text (mem_of_mem_tail htext)) hless
  unfold State.component
  by_cases hdot : name = dot
  · rw [resolve_of_cut hcut, if_pos hdot, if_pos hdot]
    cases s.entries parent with
    | error fault => rfl
    | ok entries => exact hgo parent
  by_cases hdotDot : name = dotDot
  · rw [resolve_of_cut hcut, if_neg hdot, if_neg hdot, if_pos hdotDot, if_pos hdotDot]
    by_cases hparent : parent = root
    · rw [if_pos hparent, hparent, hroot]
      exact hgo root
    · rw [if_neg hparent]
      cases s.parent parent with
      | error fault => rfl
      | ok above => exact hgo above
  by_cases hlong : name.length > Files.maxEntryName
  · rw [resolve_of_cut hcut, if_neg hdot, if_neg hdot, if_neg hdotDot, if_neg hdotDot, if_pos hlong,
      if_pos hlong]
    rfl
  rw [if_neg hdot, if_neg hdotDot, if_neg hlong]
  have hplain : Plain name := ⟨hdot, hdotDot, Nat.not_lt.mp hlong⟩
  cases hentries : s.entries parent with
  | error fault =>
    rw [resolve_of_cut hcut, if_neg hdot, if_neg hdotDot, if_neg hlong, named, hentries]
    rfl
  | ok entries =>
    by_cases hkept : s.linkTarget entries[name]? = none ∨ last.replaces left.flatten = false
    · rw [named_of_kept hentries hkept, resolve_of_kept hcut hplain hentries hkept]
      exact h.kept hbounded hleft hless _
    · obtain ⟨htarget, hreplaces⟩ := not_or.mp hkept
      obtain ⟨t, htarget⟩ := Option.ne_none_iff_exists'.mp htarget
      rw [Bool.not_eq_false] at hreplaces
      rw [named_of_link hentries htarget hreplaces,
        resolve_of_link hcut hplain hentries htarget hreplaces, bind_assoc]
      exact h.link hbounded hleft hless (linkTarget_length_le htarget) _

end Step

/-- The texts of a walk are the text of the reference in pieces. -/
theorem walkOn_eq_resolve (hroot : s.parent root = .ok root) (fuel : ℕ) : s.Resolves last fuel := by
  induction fuel with
  | zero =>
    intro _ _ _ _ _ hfuel
    exact absurd hfuel (Nat.not_lt_zero _)
  | succ fuel ih =>
    intro parent entered texts hbounded hseams hfuel
    cases hcut : cut texts.flatten with
    | none =>
      rw [resolve_of_none hcut]
      simp only [walkOn, walkStep, Pending.next, nextOf_of_none hcut hseams]
      rfl
    | some a =>
      obtain ⟨name, rest⟩ := a
      obtain ⟨left, hnext, rfl, hleft⟩ := nextOf_of_cut hcut hseams
      obtain ⟨_, _, hshorter, hless⟩ := nextOf_some hnext
      rw [walkOn_step hnext]
      refine ih.component hroot hcut ⟨hshorter.trans hbounded.1, hbounded.2⟩ hleft ?_
      simp only [Pending.left] at hfuel ⊢
      omega

/-- A walk resolves its path as the reference does. -/
theorem walk_eq_resolvePath (hroot : s.parent root = .ok root) (path : Bytes) (last : Last) :
    s.walk path last = s.resolvePath path last := by
  unfold walk resolvePath
  cases s.walkStart path with
  | error fault => rfl
  | ok start =>
    change s.walkOn last (s.walkBound path) ⟨start, none, ⟨[path], 0, false⟩⟩ =
      s.resolve last maxLinks start path
    rw [walkOn_eq_resolve hroot _ (start_bounded path) (by simp) (start_left path)]
    simp

/-- Every walk ends without running over its texts, also in a cycle of links, and in a tree it
resolves its path as the reference does. -/
theorem walk_resolves (s : State) (path : Bytes) (last : Last) :
    s.walk path last ≠ .error .diverge ∧ s.walk path last ≠ .error .panic ∧
      (Tree root ValidName none s.core.shapes → s.walk path last = s.resolvePath path last) := by
  refine ⟨fun h ↦ ?_, fun h ↦ ?_, fun htree ↦
    walk_eq_resolvePath (parent_eq_ok_iff.mpr htree.root_parent) path last⟩
  · obtain ⟨_, hfault⟩ := (walk_yields path last).of_error h
    cases hfault
  · obtain ⟨_, hfault⟩ := (walk_yields path last).of_error h
    cases hfault

/-- A path that goes through a link, and up from the root. -/
theorem walk_resolves_populated : system.Reachable populated ∧
    populated.walk [47, 46, 46, 47, 98, 47, 99] .follow = .ok ⟨2, [99], some 4, false⟩ ∧
    populated.walk [47, 46, 46, 47, 98, 47, 99]
      .follow = populated.resolvePath [47, 46, 46, 47, 98, 47, 99] .follow :=
  ⟨reachable_populated, rfl,
    (walk_resolves populated _ _).2.2 (steady_of_reachable reachable_populated).sound.tree⟩

end State

end DotnetPal.Memfs
