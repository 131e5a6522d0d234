import DotnetPal.Port
import DotnetPal.Linux.Lines
import Mathlib.Data.List.Infix

/-!
# The cgroup directory of the process

`hierarchy_mount` finds the mount point and the mounted root in the lines of `/proc/self/mountinfo`,
`cgroup_relative` the path of the process in those of `/proc/self/cgroup`, and `cgroup_directory`
puts the part of the path below the root behind the mount point. The root is compared byte by byte,
while directories are ordered by components.
-/

namespace DotnetPal.Linux.Cgroups

open List

abbrev Bytes := List UInt8

def slash : UInt8 := 0x2f

/-- A buffer of 512 bytes with room for the terminator. -/
structure Path where
  text : Bytes
  fits : text.length < 512

def Path.set (value : Bytes) : Option Path :=
  if h : value.length < 512 then some ⟨value, h⟩ else none

def Path.push (path : Path) (value : Bytes) : Option Path := Path.set (path.text ++ value)

def startsWith (bytes front : Bytes) : Bool := front.length ≤ bytes.length && bytes.take front.length == front

def fields (line : Bytes) : List Bytes := (line.splitOn 0x20).filter (· ≠ [])

/-- The place of the separator " - ". -/
def separator (text : Bytes) : Option ℕ :=
  (range text.length).find? fun i ↦ (text.drop i).take 3 == [32, 45, 32]

/-- The names of the file systems, "cgroup2" and "cgroup". -/
def unified : Bytes := [99, 103, 114, 111, 117, 112, 50]
def legacy : Bytes := unified.take 6

/-- The mount point and the root of the hierarchy, if the line is of it. -/
def mountOf (version : ℕ) (controller text : Bytes) : Option (Path × Path) :=
  match separator text with
  | none => none
  | some i =>
    match fields (text.drop (i + 3)), fields (text.take i) with
    | fsType :: _source :: options :: _, _ :: _ :: _ :: mountRoot :: mountPoint :: _ =>
      if if version = 2 then fsType = unified else fsType = legacy ∧ controller ∈ options.splitOn 0x2c then do
        let root ← Path.set mountRoot
        let mount ← Path.set mountPoint
        return (mount, root)
      else none
    | _, _ => none

def hierarchyMount (version : ℕ) (controller : Bytes) (lines : List Bytes) : Option (Path × Path) :=
  lines.findSome? (mountOf version controller)

/-- The path of the process, if the line is of the hierarchy. -/
def relativeOf (version : ℕ) (controller text : Bytes) : Option Bytes :=
  match text.splitOn 0x3a with
  | id :: controllers :: part :: parts =>
    if if version = 2 then id = [48] ∧ controllers = [] else controller ∈ controllers.splitOn 0x2c then
      some ([58].intercalate (part :: parts))
    else none
  | _ => none

/-- The first line that matches decides, also when its path does not fit. -/
def cgroupRelative (version : ℕ) (controller : Bytes) (lines : List Bytes) : Option Path := do
  let path ← lines.findSome? (relativeOf version controller)
  Path.set path

/-- The lines are those the loops over the two files take, whatever sizes the reads return. -/
theorem cgroup_lines (version : ℕ) (controller content : Bytes) (size : ℕ → ℕ) {fuel : ℕ}
    (hfuel : (Lines.expected content).length < fuel) :
    hierarchyMount version controller (Lines.expected content) =
      (Lines.opened content).find size (mountOf version controller) fuel ∧
    cgroupRelative version controller (Lines.expected content) =
      ((Lines.opened content).find size (relativeOf version controller) fuel).bind Path.set := by
  have hsound : (Lines.opened content).Sound := ⟨Nat.zero_le _, nofun⟩
  rw [Lines.find_eq hsound hfuel, Lines.find_eq hsound hfuel]
  exact ⟨rfl, rfl⟩

/-- The bytes of the path that name the root. -/
def rootLen (root relative : Bytes) : ℕ :=
  if root.length = 1 ∨ startsWith relative root = false then 0 else root.length

/-- The directory and the mount point. -/
def cgroupDirectory (version : ℕ) (controller : Bytes) (mountinfo cgroup : List Bytes) :
    Option (Path × Path) := do
  let (mount, root) ← hierarchyMount version controller mountinfo
  let relative ← cgroupRelative version controller cgroup
  let out ← Path.set mount.text
  let out ← out.push (relative.text.drop (rootLen root.text relative.text))
  return (out, mount)

/-! ## Directories by components -/

/-- The root is the path or one of its ancestors. -/
abbrev Within (root path : Bytes) : Prop := root.splitOn slash <+: path.splitOn slash

/-- What the directory should be: the root "/" strips nothing. -/
def expected (mount root path : Bytes) : Bytes :=
  mount ++ if Within root path ∧ root ≠ [slash] then path.drop root.length else path

def Below (mount out : Bytes) : Prop := out = mount ∨ ∃ rest, out = mount ++ slash :: rest

/-- Behind the root the path ends or goes on with a slash. -/
def Parted (root path : Bytes) : Prop := ∀ c ∈ (path.drop root.length).head?, c = slash

theorem intercalate_append_cons (sep : Bytes) {x : List Bytes} (hfirst : x ≠ []) {rest : List Bytes}
    (hrest : rest ≠ []) :
    sep.intercalate (x ++ rest) = sep.intercalate x ++ sep ++ sep.intercalate rest := by
  induction x with
  | nil => exact absurd rfl hfirst
  | cons text texts ih =>
    cases texts with
    | nil => simp [intercalate_cons_of_ne_nil hrest]
    | cons next texts =>
      rw [cons_append, intercalate_cons_of_ne_nil (by simp), ih (by simp), intercalate_cons_cons]
      simp only [append_assoc]

/-- Components agree as far as the bytes agree up to a slash. -/
theorem within_iff {root path : Bytes} : Within root path ↔ root = path ∨ root ++ [slash] <+: path := by
  constructor
  · rintro ⟨rest, hrest⟩
    have hpath := congrArg ([slash].intercalate ·) hrest
    simp only [intercalate_splitOn] at hpath
    by_cases hnil : rest = []
    · rw [hnil, append_nil, intercalate_splitOn] at hpath
      exact .inl hpath
    · rw [intercalate_append_cons _ (splitOn_ne_nil _ _) hnil, intercalate_splitOn] at hpath
      exact .inr ⟨_, hpath⟩
  · rintro (rfl | ⟨rest, rfl⟩)
    · exact prefix_refl _
    · rw [append_assoc]
      exact ⟨_, (splitOnP_append_cons root rest (by simp)).symm⟩

theorem startsWith_iff {bytes front : Bytes} : startsWith bytes front = true ↔ front <+: bytes := by
  rw [startsWith, Bool.and_eq_true, decide_eq_true_eq, beq_iff_eq, prefix_iff_eq_take]
  refine ⟨fun h ↦ h.2.symm, fun h ↦ ⟨?_, h.symm⟩⟩
  rw [h]
  exact length_take_le' ..

theorem within_append_iff {root rest : Bytes} :
    Within root (root ++ rest) ↔ ∀ c ∈ rest.head?, c = slash := by
  rw [within_iff, prefix_append_right_inj]
  cases rest with
  | nil => simp
  | cons c rest => simp [eq_comm]

theorem Within.front {root path : Bytes} (h : Within root path) : root <+: path := by
  rcases within_iff.1 h with rfl | h
  · exact prefix_refl _
  · exact (prefix_append _ _).trans h

/-- Comparing bytes strips the right part exactly where the root ends with a component of the path. -/
theorem stripped_iff {mount root path : Bytes} (hroot : root.head? = some slash)
    (hpath : path.head? = some slash) :
    (mount ++ path.drop (rootLen root path) = expected mount root path ∧
        Below mount (mount ++ path.drop (rootLen root path))) ↔
      (root.length = 1 ∨ startsWith path root = false) ∨ Parted root path := by
  obtain ⟨names, rfl⟩ := head?_eq_some_iff.1 hroot
  unfold expected rootLen
  by_cases hwhole : (slash :: names).length = 1 ∨ startsWith path (slash :: names) = false
  · have hnot : ¬ (Within (slash :: names) path ∧ slash :: names ≠ [slash]) := by
      rintro ⟨hwithin, hne⟩
      rcases hwhole with hone | hfront
      · exact hne (by simpa using hone)
      · rw [startsWith_iff.2 hwithin.front] at hfront
        cases hfront
    obtain ⟨texts, rfl⟩ := head?_eq_some_iff.1 hpath
    rw [if_pos hwhole, if_neg hnot, drop_zero]
    exact ⟨fun _ ↦ .inl hwhole, fun _ ↦ ⟨rfl, .inr ⟨texts, rfl⟩⟩⟩
  · obtain ⟨rest, rfl⟩ := startsWith_iff.1 (Bool.not_eq_false _ ▸ (not_or.1 hwhole).2)
    rw [if_neg hwhole, Parted, drop_left]
    by_cases hparted : ∀ c ∈ rest.head?, c = slash
    · rw [if_pos ⟨within_append_iff.2 hparted, fun h ↦ hwhole (.inl (congrArg length h))⟩]
      refine ⟨fun _ ↦ .inr hparted, fun _ ↦ ⟨rfl, ?_⟩⟩
      cases rest with
      | nil => exact .inl (append_nil _)
      | cons c rest => exact .inr ⟨rest, by rw [hparted c rfl]⟩
    · rw [if_neg (fun h ↦ hparted (within_append_iff.1 h.1))]
      refine ⟨fun h ↦ ?_, fun h ↦ absurd h (not_or.2 ⟨hwhole, hparted⟩)⟩
      have hlen := congrArg length h.1
      simp only [length_append, length_cons] at hlen
      omega

section

variable {version : ℕ} {controller : Bytes} {mountinfo cgroup : List Bytes} {mount root relative : Path}
  (hmount : hierarchyMount version controller mountinfo = some (mount, root))
  (hrelative : cgroupRelative version controller cgroup = some relative)
  (hfits : mount.text.length + relative.text.length < 512)
include hmount hrelative hfits

theorem cgroupDirectory_eq :
    ∃ out : Path, cgroupDirectory version controller mountinfo cgroup = some (out, mount) ∧
      out.text = mount.text ++ relative.text.drop (rootLen root.text relative.text) := by
  have hset {v : Bytes} (h : v.length < 512) : Path.set v = some ⟨v, h⟩ := dif_pos h
  have hout : (mount.text ++ relative.text.drop (rootLen root.text relative.text)).length < 512 := by
    rw [length_append, length_drop]
    omega
  refine ⟨⟨_, hout⟩, ?_, rfl⟩
  simp only [cgroupDirectory, hmount, hrelative, hset mount.fits, Path.push, Option.bind_eq_bind,
    Option.bind_some, hset hout]
  rfl

/-- The whole of discovery: the directory is the one the components ask for under the condition of
`stripped_iff`. -/
theorem cgroupDirectory_iff (hroot : root.text.head? = some slash)
    (hpath : relative.text.head? = some slash) :
    (∃ out, cgroupDirectory version controller mountinfo cgroup = some (out, mount) ∧
      out.text = expected mount.text root.text relative.text ∧ Below mount.text out.text) ↔
      (root.text.length = 1 ∨ startsWith relative.text root.text = false) ∨
        Parted root.text relative.text := by
  obtain ⟨out, hout, htext⟩ := cgroupDirectory_eq hmount hrelative hfits
  simp only [hout, Option.some.injEq, Prod.mk.injEq, and_true, exists_eq_left', htext]
  exact stripped_iff hroot hpath

end

/-- The line "a b c /a /m - cgroup2 s o". -/
def mountLine : Bytes :=
  [97, 32, 98, 32, 99, 32, 47, 97, 32, 47, 109, 32, 45, 32] ++ unified ++
    [32, 115, 32, 111]

/-- The process is in "/a/b". -/
theorem cgroupDirectory_iff_child :
    ∃ out mount :
    Path, cgroupDirectory 2 [] [mountLine] [[48, 58, 58, 47, 97, 47, 98]] = some (out, mount) ∧
      out.text = expected [47, 109] [47, 97] [47, 97, 47, 98] := by
  have hmount : hierarchyMount 2 [] [mountLine] =
    some (⟨[47, 109], by decide⟩, ⟨[47, 97], by decide⟩) := rfl
  have hrelative : cgroupRelative 2 [] [[48, 58, 58, 47, 97, 47, 98]] =
    some ⟨[47, 97, 47, 98], by decide⟩ := rfl
  obtain ⟨out, hout, htext, _⟩ :=
    (cgroupDirectory_iff hmount hrelative (by decide) rfl rfl).2 (.inr (by rintro _ ⟨⟩; rfl))
  exact ⟨out, _, hout, htext⟩

/-- A process in "/ab", outside of the mounted "/a", is looked for in "/mb". -/
theorem cgroupDirectory_sibling :
    ∃ out mount : Path, cgroupDirectory 2 [] [mountLine] [[48, 58, 58, 47, 97, 98]] = some (out, mount) ∧
      mount.text = [47, 109] ∧ out.text = [47, 109, 98] ∧ ¬ Below mount.text out.text ∧
      out.text ≠ expected mount.text [47, 97] [47, 97, 98] := by
  refine ⟨_, _, rfl, rfl, rfl, ?_, by decide⟩
  rintro (h | ⟨rest, h⟩) <;> cases h

end DotnetPal.Linux.Cgroups
