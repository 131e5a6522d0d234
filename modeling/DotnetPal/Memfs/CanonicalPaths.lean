import DotnetPal.Foundations.Descents
import DotnetPal.Memfs.Enumeration
import DotnetPal.Memfs.Resolver

/-!
# Canonical paths

A climb from a directory to the root reads off the names of the one descent that leads to it, and a
path that is spelled from them leads back there without a link on the way. The text is written from
its end, part by part as the climb goes.
-/

open Std List Option

namespace DotnetPal.Memfs

open Programs Hierarchy DirectoryTree

attribute [local instance] lexOrd

/-! ## Texts of paths -/

/-- The parts of a path, each behind a slash. -/
def spelled (parts : List Bytes) : Bytes := (parts.map (slash :: ·)).flatten

/-- The absolute path with these parts. -/
def pathText (parts : List Bytes) : Bytes := if parts = [] then [slash] else spelled parts

@[simp]
theorem spelled_cons (part : Bytes) (ps : List Bytes) :
    spelled (part :: ps) = slash :: (part ++ spelled ps) := by
  simp [spelled]

variable {ps : List Bytes}

theorem spelled_ne_nil (h : ps ≠ []) : spelled ps ≠ [] := by
  cases ps with
  | nil => exact absurd rfl h
  | cons part ps => simp

theorem seam_spelled (ps : List Bytes) : Seam (spelled ps) := by
  cases ps with
  | nil => simp [Seam, spelled]
  | cons part ps => simp [Seam]

theorem cut_spelled {part : Bytes} (hne : part ≠ []) (hslash : slash ∉ part) (ps : List Bytes) :
    cut (spelled (part :: ps)) = some (part, spelled ps) := by
  have hall : ∀ byte ∈ part, byte ≠ slash := fun byte hbyte heq ↦ hslash (heq ▸ hbyte)
  have hdrop : (slash :: part).dropWhile (· == slash) = part := by
    rw [dropWhile_cons_of_pos (by simp), dropWhile_eq_self_iff]
    intro hpos
    simpa using hall _ (getElem_mem hpos)
  have htake : part.takeWhile (· != slash) = part := takeWhile_eq_self_iff.mpr fun byte hbyte ↦ by
    simpa using hall byte hbyte
  have hrest : part.dropWhile (· != slash) = [] := dropWhile_eq_nil_iff.mpr fun byte hbyte ↦ by
    simpa using hall byte hbyte
  have hcut : cut (slash :: part ++ spelled ps) = _ := cut_append_of_seam (by rwa [hdrop]) (seam_spelled ps)
  rw [hdrop, htake, hrest, nil_append] at hcut
  rwa [spelled_cons]

theorem isSome_cut_spelled (hparts : ps ≠ []) (hvalid : ∀ part ∈ ps, ValidName part) :
    (cut (spelled ps)).isSome = true := by
  obtain ⟨part, rest, rfl⟩ := exists_cons_of_ne_nil hparts
  obtain ⟨hne, _, hslash, _⟩ := hvalid part mem_cons_self
  rw [cut_spelled hne hslash]
  rfl

theorem length_spelled (ps : List Bytes) :
    (spelled ps).length = (ps.map fun part ↦ 1 + part.length).sum := by
  induction ps with
  | nil => rfl
  | cons part ps ih =>
    rw [spelled_cons, map_cons, sum_cons, ← ih, length_cons, length_append]
    omega

theorem length_pathText (ps : List Bytes) : (pathText ps).length = max (spelled ps).length 1 := by
  unfold pathText
  split
  · rename_i hnil
    rw [hnil]
    rfl
  · rename_i hparts
    have hpos := length_pos_of_ne_nil (spelled_ne_nil hparts)
    omega

variable {cap : ℕ}

namespace State

variable {s : State} {last : Last} {dir node : ℕ} {name : Bytes} {ps : List Bytes}

/-! ## Climbs and descents -/

/-- A climb reads the names of the descent to a directory. -/
theorem climbOn_descends (hsound : s.core.Sound none) {n fuel : ℕ}
    (h : ClimbsIn s.core.parent? root n dir) (hfuel : n < fuel) :
    ∃ names, s.climbOn fuel dir = .ok names ∧ descend s.core.shapes root names.reverse = some dir := by
  induction h generalizing fuel with
  | root =>
    obtain ⟨rest, rfl⟩ := Nat.exists_eq_add_of_lt hfuel
    exact ⟨[], by simp only [climbOn, if_true]; rfl, rfl⟩
  | @step lower above n hroot hparent _ ih =>
    obtain ⟨rest, rfl⟩ := Nat.exists_eq_add_of_lt hfuel
    obtain ⟨names, hnames, hdescend⟩ := @ih (n + 1 + rest) (by omega)
    have habove := hsound.tree.parent_directory hparent
    obtain ⟨entries, hentries⟩ := exists_entries habove
    obtain ⟨name, hname⟩ := hsound.tree.has_name lower above hparent hroot (by simp)
    have he : ∀ name, entryOf s.core.shapes above name = entries[name]? := child?_of_entries hentries
    -- The search finds the name the directory has in its parent.
    obtain ⟨⟨own, id⟩, hfind⟩ : ∃ x, entries.toList.find? (fun e ↦ e.2 = lower) = some x := by
      rw [← isSome_iff_exists, find?_isSome]
      rw [he] at hname
      exact ⟨(name, lower), ExtTreeMap.mem_toList_iff_getElem?_eq_some.mpr hname, by simp⟩
    obtain rfl : id = lower := by simpa using find?_some hfind
    have hown : entries[own]? = some id :=
      ExtTreeMap.mem_toList_iff_getElem?_eq_some.mp (mem_of_find?_eq_some hfind)
    refine ⟨own :: names, ?_, ?_⟩
    · simp only [climbOn, if_neg hroot]
      refine except_bind_eq_ok_iff.mpr ⟨above, parent_eq_ok_iff.mpr hparent, ?_⟩
      refine except_bind_eq_ok_iff.mpr ⟨entries, hentries, ?_⟩
      refine except_bind_eq_ok_iff.mpr ⟨(own, id), Result.required_eq_ok_iff.mpr hfind, ?_⟩
      exact except_bind_eq_ok_iff.mpr ⟨names, hnames, rfl⟩
    · rw [reverse_cons]
      exact descend_concat_eq_some_iff.mpr ⟨above, hdescend, (he own).trans hown⟩

/-- The climb from where a descent leads to. -/
theorem climbOn_of_descend (hsound : s.core.Sound none) (h : descend s.core.shapes root ps = some dir)
    (hdir : (s.core.parent? dir).isSome) :
    s.climbOn s.climbBound dir = .ok ps.reverse := by
  obtain ⟨n, hn, hless⟩ := exists_climb hsound hdir
  obtain ⟨names, hnames, hdescend⟩ := climbOn_descends hsound hn hless
  rw [hnames, ← hsound.tree.descend_injective hdescend h hdir, reverse_reverse]

/-- What a path has led to: a directory by itself, or an entry of one. -/
def Leads (s : State) (dir : ℕ) (name : Bytes) (node : ℕ) : Prop :=
  (s.core.parent? dir).isSome ∧
    (name = [] ∧ node = dir ∨ ValidName name ∧ s.core.child? dir name = some node)

variable (hsound : s.core.Sound none)
include hsound

theorem exists_descend (hdir : (s.core.parent? dir).isSome) :
    ∃ ps, descend s.core.shapes root ps = some dir := by
  obtain ⟨n, hn, hless⟩ := exists_climb hsound hdir
  obtain ⟨names, _, hdescend⟩ := climbOn_descends hsound hn hless
  exact ⟨_, hdescend⟩

/-- The parts of a path are the names of a descent to its node. -/
theorem Leads.climb (h : s.Leads dir name node) :
    ∃ ps, s.climb dir name = .ok ps.reverse ∧ descend s.core.shapes root ps = some node := by
  obtain ⟨hdir, hname⟩ := h
  obtain ⟨above, habove⟩ := exists_descend hsound hdir
  have hclimb := climbOn_of_descend hsound habove hdir
  rcases hname with ⟨rfl, rfl⟩ | ⟨hvalid, he⟩
  · exact ⟨above, except_bind_eq_ok_iff.mpr ⟨_, hclimb, rfl⟩, habove⟩
  · refine ⟨above ++ [name], ?_, descend_concat_eq_some_iff.mpr ⟨dir, habove, he⟩⟩
    have hfull : ¬name.isEmpty = true := by simpa using hvalid.1
    refine except_bind_eq_ok_iff.mpr ⟨_, hclimb, ?_⟩
    rw [if_neg hfull, reverse_append]
    rfl

/-! ## Walking a spelled path -/

/-- A spelled path leads where its names do, whatever links a walk may follow, if it keeps what
is at its end. -/
theorem resolve_spelled (links : ℕ)
    (hnode : s.linkTarget (some node) = none ∨ last.replaces [] = false)
    (h : descend s.core.shapes dir (ps ++ [name]) = some node) :
    ∃ above, descend s.core.shapes dir ps = some above ∧
      s.resolve last links dir (spelled (ps ++ [name])) = .ok ⟨above, name, some node, false⟩ := by
  induction ps generalizing dir with
  | nil =>
    obtain ⟨next, he, hdone⟩ := bind_eq_some_iff.mp h
    obtain rfl : next = node := some.inj hdone
    obtain ⟨hne, hlen, hslash, hdot, hdotDot⟩ := hsound.tree.valid_names dir name next he
    obtain ⟨entries, hentries⟩ := exists_entries (isSome_parentOf_of_entryOf he)
    have hget : entries[name]? = some next := (child?_of_entries hentries name).symm.trans he
    refine ⟨dir, rfl, ?_⟩
    rw [nil_append, resolve_of_kept (cut_spelled hne hslash []) ⟨hdot, hdotDot, hlen⟩ hentries
      (by rw [hget]; exact hnode), hget]
    rfl
  | cons a ps ih =>
    obtain ⟨next, he, hrest⟩ := bind_eq_some_iff.mp h
    obtain ⟨above, habove, hresolve⟩ := ih hrest
    obtain ⟨hne, hlen, hslash, hdot, hdotDot⟩ := hsound.tree.valid_names dir a next he
    obtain ⟨entries, hentries⟩ := exists_entries (isSome_parentOf_of_entryOf he)
    have hget : entries[a]? = some next := (child?_of_entries hentries a).symm.trans he
    -- The names go on from there, so it is a directory and no link.
    have hnext : s.linkTarget (some next) = none :=
      linkTarget_of_directory (isSome_parentOf_of_descend hrest (by simp))
    have hmore : (cut (spelled (ps ++ [name]))).isSome = true :=
      isSome_cut_spelled (by simp) fun part hpart ↦ hsound.tree.descend_valid hrest part hpart
    refine ⟨above, bind_eq_some_iff.mpr ⟨next, he, habove⟩, ?_⟩
    rw [cons_append, resolve_of_kept (cut_spelled hne hslash _) ⟨hdot, hdotDot, hlen⟩ hentries
      (.inl (by rw [hget]; exact hnext)), if_pos hmore, hget]
    exact hresolve

/-- The path that is spelled from a descent leads where it does, through no link, and spells itself. -/
theorem walk_pathText (h : descend s.core.shapes root ps = some node)
    (hnode : s.linkTarget (some node) = none) (last : Last) :
    ∃ p, p.node = some node ∧ s.walk (pathText ps) last = .ok p ∧
      (∀ links, s.resolve last links root (pathText ps) = .ok p) ∧
      s.climb p.parent p.name = .ok ps.reverse := by
  have hroot := parent_eq_ok_iff.mpr hsound.tree.root_parent
  have hstart : s.walkStart (pathText ps) = .ok root := by
    refine if_pos ?_
    cases ps <;> simp [pathText, startsWithSlash]
  have hwalk : ∀ p, (∀ links, s.resolve last links root (pathText ps) = .ok p) →
      s.walk (pathText ps) last = .ok p := by
    intro p hresolve
    rw [walk_eq_resolvePath hroot]
    exact except_bind_eq_ok_iff.mpr ⟨root, hstart, hresolve _⟩
  rcases eq_nil_or_concat' ps with rfl | ⟨init, name, rfl⟩
  · obtain rfl : root = node := some.inj h
    have hresolve : ∀ links, s.resolve last links root (pathText []) = .ok ⟨root, [], some root, true⟩ :=
      fun links ↦ resolve_of_none (cut_eq_none_iff.mpr (by simp [pathText]))
    have hclimb : s.climbOn s.climbBound root = .ok [] := by
      simp only [climbBound, climbOn, if_true]
      rfl
    exact ⟨_, rfl, hwalk _ hresolve, hresolve, except_bind_eq_ok_iff.mpr ⟨[], hclimb, rfl⟩⟩
  · have htext : pathText (init ++ [name]) = spelled (init ++ [name]) := if_neg (by simp)
    obtain ⟨above, habove, he⟩ := descend_concat_eq_some_iff.mp h
    have hresolve : ∀ links, s.resolve last links root (pathText (init ++ [name])) =
      .ok ⟨above, name, some node, false⟩ := by
      intro links
      obtain ⟨j, hj, hresolve⟩ := resolve_spelled hsound links (.inl hnode) h
      obtain rfl : above = j := some.inj (habove.symm.trans hj)
      rw [htext, hresolve]
    have hdir := isSome_parentOf_of_entryOf he
    have hfull : ¬name.isEmpty = true := by simpa using (hsound.tree.valid_names above name node he).1
    refine ⟨_, rfl, hwalk _ hresolve, hresolve, ?_⟩
    refine except_bind_eq_ok_iff.mpr ⟨_, climbOn_of_descend hsound habove hdir, ?_⟩
    rw [if_neg hfull, reverse_append]
    rfl

omit hsound

/-! ## Spelling -/

/-- The length a text needs, and the text if the buffer holds it. -/
def told (capacity : ℕ) (text : Bytes) : Result (ℕ × Option Bytes) :=
  if text.length > Runtime.maxName then .error Error.nameTooLong
  else .ok (text.length + 1, if text.length < capacity then some text else none)

theorem spell_of_climb (h : s.climb dir name = .ok ps.reverse) :
    s.spell dir name cap = told cap (pathText ps) := by
  have hlen : max (ps.reverse.map fun part ↦ 1 + part.length).sum 1 = (pathText ps).length := by
    rw [length_pathText, length_spelled, map_reverse, sum_reverse]
  have htext : (if (spelled ps).isEmpty = true then [slash] else spelled ps) = pathText ps := by
    cases ps with
    | nil => rfl
    | cons part ps => simp [pathText]
  unfold spell told
  rw [h]
  simp only [bind, Except.bind, hlen, reverse_reverse, gt_iff_lt, Nat.add_lt_add_iff_right,
    Nat.add_one_le_iff]
  split
  · rfl
  · split
    · exact congrArg (fun text ↦ Except.ok (_, some text)) htext
    · rfl

/-! ### What is written -/

/-- A store of one byte at an offset of the buffer. -/
abbrev Store := UInt8 × ℕ

/-- One part of the second climb: it is stored behind its slash, in front of what is
written already. -/
def fill (progress : ℕ × List Store) (part : Bytes) : Result (ℕ × List Store) :=
  if part.length + 1 > progress.1 then .error .panic
  else
    let start := progress.1 - (part.length + 1)
    .ok (start, progress.2 ++ (slash :: part).zipIdx start)

/-- The length a path needs, and the stores into the buffer. The path is measured by one climb and
written by another. -/
def spellInto (s : State) (dir : ℕ) (name : Bytes) (capacity : ℕ) : Result (ℕ × List Store) := do
  let measured ← s.climb dir name
  let needed := max (measured.map fun part ↦ 1 + part.length).sum 1 + 1
  if needed > Runtime.maxName + 1 then .error Error.nameTooLong
  else if needed ≤ capacity then
    let parts ← s.climb dir name
    let (_, stores) ← parts.foldlM fill (needed - 1, [(slash, 0), (0, needed - 1)])
    return (needed, stores)
  else return (needed, [])

/-- The parts of a climb fill the buffer down to its beginning, each byte of their text once. -/
theorem fill_parts (ps : List Bytes) (behind : ℕ) (stores : List Store) :
    ∃ filled, ps.foldlM fill ((spelled ps.reverse).length + behind, stores) =
      .ok (behind, stores ++ filled) ∧
      filled.Perm ((spelled ps.reverse).zipIdx behind) := by
  induction ps generalizing stores with
  | nil => exact ⟨[], by simp [spelled, pure, Except.pure], .refl _⟩
  | cons part ps ih =>
    have htext : spelled (part :: ps).reverse = spelled ps.reverse ++ slash :: part := by
      simp [spelled]
    obtain ⟨filled, hfold, hperm⟩ :=
      ih (stores ++ (slash :: part).zipIdx ((spelled ps.reverse).length + behind))
    refine ⟨(slash :: part).zipIdx ((spelled ps.reverse).length + behind) ++ filled, ?_, ?_⟩
    · have hfill : fill ((spelled (part :: ps).reverse).length + behind, stores) part =
          .ok ((spelled ps.reverse).length + behind,
            stores ++ (slash :: part).zipIdx ((spelled ps.reverse).length + behind)) := by
        rw [htext, fill, length_append, length_cons]
        dsimp only
        rw [if_neg (by omega), show (spelled ps.reverse).length +
          (part.length + 1) + behind - (part.length + 1) =
          (spelled ps.reverse).length + behind by omega]
      rw [foldlM_cons, hfill, ← append_assoc]
      exact hfold
    · rw [htext, zipIdx_append, Nat.add_comm behind]
      exact (perm_append_comm).trans (hperm.append_right _)

theorem spellInto_of_climb (h : s.climb dir name = .ok ps.reverse) :
    (pathText ps).length > Runtime.maxName ∧ s.spellInto dir name cap = .error Error.nameTooLong ∨
      (pathText ps).length ≤ Runtime.maxName ∧ cap ≤ (pathText ps).length ∧
        s.spellInto dir name cap = .ok ((pathText ps).length + 1, []) ∨
      (pathText ps).length ≤ Runtime.maxName ∧ (pathText ps).length < cap ∧
        ∃ filled, filled.Perm ((spelled ps).zipIdx) ∧ s.spellInto dir name cap =
          .ok ((pathText ps).length + 1, (slash, 0) :: (0, (pathText ps).length) :: filled) := by
  have hlen : max (ps.reverse.map fun part ↦ 1 + part.length).sum 1 = (pathText ps).length := by
    rw [length_pathText, length_spelled, map_reverse, sum_reverse]
  unfold spellInto
  rw [h]
  simp only [bind, Except.bind, hlen, gt_iff_lt, Nat.add_lt_add_iff_right, Nat.add_one_le_iff]
  by_cases hlong : Runtime.maxName < (pathText ps).length
  · exact .inl ⟨hlong, if_pos hlong⟩
  rw [if_neg hlong]
  by_cases hholds : (pathText ps).length < cap
  · rw [if_pos hholds]
    refine .inr (.inr ⟨Nat.not_lt.mp hlong, hholds, ?_⟩)
    by_cases hparts : ps = []
    · rw [hparts]
      exact ⟨[], .refl _, rfl⟩
    · obtain ⟨filled, hfold, hperm⟩ := fill_parts ps.reverse 0 [(slash, 0), (0, (spelled ps).length)]
      rw [reverse_reverse] at hfold hperm
      have htext : pathText ps = spelled ps := if_neg hparts
      refine ⟨filled, hperm, ?_⟩
      rw [htext, Nat.add_sub_cancel]
      simp only [Nat.add_zero] at hfold
      rw [hfold]
      rfl
  · rw [if_neg hholds]
    exact .inr (.inl ⟨Nat.not_lt.mp hlong, Nat.not_lt.mp hholds, rfl⟩)

end State

namespace Files

/-- `realPath` with its stores into the buffer. -/
def realPathInto (path : Bytes) (capacity : ℕ) (s : State) : Result (ℕ × List State.Store) := do
  let place ← s.walk path .follow
  let _ ← Result.required place.node .notFound
  s.spellInto place.parent place.name capacity

/-- `currentDirectory` with its stores into the buffer. -/
def currentDirectoryInto (capacity : ℕ) (s : State) : Result (ℕ × List State.Store) := do
  let working ← s.workingDirectory
  s.spellInto working [] capacity

end Files

/-! ## Canonical paths in every run -/

/-- An absolute path without an empty component, one that stands for a directory, or a
slash at its end. -/
def Canonical (text : Bytes) : Prop :=
  ∃ parts : List Bytes, text = pathText parts ∧ ∀ part ∈ parts, part ≠ [] ∧ slash ∉ part ∧
    part ≠ dot ∧ part ≠ dotDot

namespace State

/-- A canonical path of a node: every walk of it leads there, even one that may follow no link, and
it is its own real path. -/
structure Names (s : State) (text : Bytes) (node : ℕ) : Prop where
  canonical : Canonical text
  straight : ∀ last, ∃ place, place.node = some node ∧ s.walk text last = .ok place ∧
    ∀ links, s.resolve last links root text = .ok place
  fixed : ∀ capacity, Files.realPath text capacity s = told capacity text

/-- What is stored for a text: the slash the root has, the terminator, and each byte of any other
path once. Nothing is stored in a buffer that does not hold it. -/
def Stored (capacity : ℕ) (text : Bytes) (stores : List Store) : Prop :=
  if text.length < capacity then
    ∃ filled, stores = (slash, 0) :: (0, text.length) :: filled ∧
      filled.Perm (if text = [slash] then [] else text.zipIdx)
  else stores = []

variable {s : State} {dir node : ℕ} {name : Bytes}

theorem workingDirectory_eq {working : ℕ} (h : s.workingDirectory = .ok working) : s.working = working := by
  unfold workingDirectory at h
  split at h
  · exact Except.ok.inj h
  · cases h

theorem names_of_descend (hsound : s.core.Sound none)
    (h : descend s.core.shapes root ps = some node) (hnode : s.linkTarget (some node) = none) :
    s.Names (pathText ps) node where
  canonical := ⟨ps, rfl, fun part hpart ↦ by
    obtain ⟨hne, _, hslash, hdot, hdotDot⟩ := hsound.tree.descend_valid h part hpart
    exact ⟨hne, hslash, hdot, hdotDot⟩⟩
  straight last := by
    obtain ⟨p, hp, hwalk, hresolve, _⟩ := walk_pathText hsound h hnode last
    exact ⟨p, hp, hwalk, hresolve⟩
  fixed cap := by
    obtain ⟨p, hp, hwalk, _, hclimb⟩ := walk_pathText hsound h hnode .follow
    unfold Files.realPath
    rw [hwalk]
    simp only [bind, Except.bind]
    rw [hp]
    exact spell_of_climb hclimb

/-- What is spelled for a node that is no link, if its path is not too long. -/
theorem Leads.spelled (hsound : s.core.Sound none) (h : s.Leads dir name node)
    (hnode : s.linkTarget (some node) = none) {reply : ℕ × Option Bytes}
    (hspell : s.spell dir name cap = .ok reply) :
    ∃ text, s.Names text node ∧ ∀ j,
      s.spell dir name j = .ok (text.length + 1, if text.length < j then some text else none) ∧
      ∃ stores, s.spellInto dir name j = .ok (text.length + 1, stores) ∧ Stored j text stores := by
  obtain ⟨ps, hclimb, hdescend⟩ := h.climb hsound
  have hshort : ¬(pathText ps).length > Runtime.maxName := by
    intro hlong
    rw [spell_of_climb hclimb, told, if_pos hlong] at hspell
    cases hspell
  refine ⟨pathText ps, names_of_descend hsound hdescend hnode, fun j ↦ ⟨?_, ?_⟩⟩
  · rw [spell_of_climb hclimb, told, if_neg hshort]
  rcases spellInto_of_climb hclimb with ⟨hlong, _⟩ | ⟨_, hsmall, hinto⟩ | ⟨_, hholds, filled, hperm, hinto⟩
  · exact absurd hlong hshort
  · exact ⟨[], hinto, by rw [Stored, if_neg (Nat.not_lt.mpr hsmall)]⟩
  · refine ⟨_, hinto, ?_⟩
    rw [Stored, if_pos hholds]
    refine ⟨filled, rfl, ?_⟩
    cases ps with
    | nil => exact hperm
    | cons part ps =>
      have htext : pathText (part :: ps) = Memfs.spelled (part :: ps) := if_neg (cons_ne_nil _ _)
      have hne : part ≠ [] := (hsound.tree.descend_valid hdescend part mem_cons_self).1
      rw [htext, if_neg (by simp [hne])]
      exact hperm

/-- In every run a real path is a canonical path of the node the path leads to, and so is the path
of the working directory. It is stored if the buffer holds it, byte for byte, with its first slash
stored once more, and otherwise only its length is told. -/
theorem paths_of_reachable (hreach : system.Reachable s) :
    (∀ path cap reply, Files.realPath path cap s = .ok reply →
      ∃ node text, Files.resolve path true s = .ok node ∧ s.Names text node ∧ ∀ other,
        Files.realPath path other s =
          .ok (text.length + 1, if text.length < other then some text else none) ∧
        ∃ stores, Files.realPathInto path other s = .ok (text.length + 1, stores) ∧
          Stored other text stores) ∧
    ∀ cap reply, Files.currentDirectory cap s = .ok reply → ∃ text, s.Names text s.working ∧ ∀ other,
        Files.currentDirectory other s =
          .ok (text.length + 1, if text.length < other then some text else none) ∧
        ∃ stores, Files.currentDirectoryInto other s = .ok (text.length + 1, stores) ∧
          Stored other text stores := by
  have hsound := (steady_of_reachable hreach).sound
  constructor
  · intro path cap reply hreal
    obtain ⟨place, hwalk, hreal⟩ := except_bind_eq_ok_iff.mp hreal
    obtain ⟨node, hnode, hreal⟩ := except_bind_eq_ok_iff.mp hreal
    have hplace := walk_sound hsound hwalk
    have hfound := Result.required_eq_ok_iff.mp hnode
    have hleads : s.Leads place.parent place.name node := by
      refine ⟨hplace.parent_directory, hplace.entry.imp (fun h ↦ ⟨h.1, ?_⟩) fun h ↦ ⟨h.1, ?_⟩⟩
      · exact some.inj (hfound.symm.trans h.2)
      · exact h.2.symm.trans hfound
    obtain ⟨text, hnames, hspelled⟩ := hleads.spelled hsound (hfound ▸ hplace.followed rfl) hreal
    refine ⟨node, text, except_bind_eq_ok_iff.mpr ⟨place, hwalk, hnode⟩, hnames, fun other ↦ ?_⟩
    obtain ⟨hspell, stores, hinto, hstored⟩ := hspelled other
    exact ⟨except_bind_eq_ok_iff.mpr
      ⟨place, hwalk, except_bind_eq_ok_iff.mpr ⟨node, hnode, hspell⟩⟩, stores,
      except_bind_eq_ok_iff.mpr ⟨place, hwalk, except_bind_eq_ok_iff.mpr ⟨node, hnode, hinto⟩⟩, hstored⟩
  · intro cap reply hcurrent
    obtain ⟨working, hworking, hcurrent⟩ := except_bind_eq_ok_iff.mp hcurrent
    have hdir := workingDirectory_yields.of_ok hworking hsound
    obtain rfl : s.working = working := workingDirectory_eq hworking
    obtain ⟨text, hnames, hspelled⟩ :=
      Leads.spelled hsound ⟨hdir, .inl ⟨rfl, rfl⟩⟩ (linkTarget_of_directory hdir) hcurrent
    refine ⟨text, hnames, fun other ↦ ?_⟩
    obtain ⟨hspell, stores, hinto, hstored⟩ := hspelled other
    exact ⟨except_bind_eq_ok_iff.mpr ⟨_, hworking, hspell⟩, stores, except_bind_eq_ok_iff.mpr
      ⟨_, hworking, hinto⟩, hstored⟩

/-- The root with one directory in it, and the real path of that. -/
theorem paths_of_reachable_inhabited : ∃ node text, Files.resolve [97] true inhabited = .ok node ∧
    inhabited.Names text node ∧ Files.realPath [97] 3 inhabited = .ok (text.length + 1, some [47, 97]) := by
  have hreal : Files.realPath [97] 3 inhabited = .ok (3, some [47, 97]) := rfl
  obtain ⟨node, text, hnode, hnames, htold⟩ := (paths_of_reachable reachable_inhabited).1 [97] 3 _ hreal
  obtain ⟨hlength, _⟩ := Prod.mk.inj (Except.ok.inj (hreal.symm.trans (htold 3).1))
  exact ⟨node, text, hnode, hnames, by rw [hreal, ← hlength]⟩

/-- The first slash of that path is stored twice. -/
theorem slash_stored_twice : system.Reachable inhabited ∧
    Files.realPathInto [97] 3 inhabited = .ok (3, [(slash, 0), (0, 2), (slash, 0), (97, 1)]) :=
  ⟨reachable_inhabited, rfl⟩

end State

end DotnetPal.Memfs
