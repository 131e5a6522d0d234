import Mathlib.Algebra.Order.Ring.Int
import Mathlib.Data.List.TakeWhile
import Mathlib.Tactic.Linarith

/-!
# Numbers in a string

`crates/dotnet-pal-build/native/freestanding/strtol.c`. A string is the list of its bytes before the
NUL, and a pointer into it is the list of those from there on, so that the byte at the end is the
NUL. `long` has 64 bits.

A number is spaces, a sign, what tells its base, and digits. The longest beginning of a string that
is one is what the functions read; no other beginning gets in the way.
-/

open List

namespace DotnetPal.Freestanding

abbrev Text := List UInt8

def ullongMax : ℕ := 2 ^ 64 - 1

def llongMax : ℕ := 2 ^ 63 - 1

def isSpace (c : UInt8) : Bool := c = 32 || (9 ≤ c && c ≤ 13)

def digitValue (c : UInt8) : ℕ :=
  if 48 ≤ c ∧ c ≤ 57 then c.toNat - 48
  else if 97 ≤ c ∧ c ≤ 122 then c.toNat - 97 + 10
  else if 65 ≤ c ∧ c ≤ 90 then c.toNat - 65 + 10
  else 99

/-! ## The scan -/

/-- The sign a number begins with, and what follows. -/
def signOf : Text → Bool × Text
  | [] => (false, [])
  | c :: rest => if c = 43 ∨ c = 45 then (c = 45, rest) else (false, c :: rest)

/-- The base of digits with nothing in front that tells it. -/
def plainBase (base : ℕ) (first : UInt8) : ℕ := if base = 0 then if first = 48 then 8 else 10 else base

/-- The base of the digits, and where they begin. -/
def baseOf (base : ℕ) (c23 : Bool) (p : Text) : ℕ × Text :=
  if (base = 0 ∨ base = 16) ∧ p.getD 0 0 = 48 ∧ (p.getD 1 0 = 120 ∨ p.getD 1 0 = 88) ∧
    digitValue (p.getD 2 0) < 16 then
    (16, p.drop 2)
  else if c23 ∧ (base = 0 ∨ base = 2) ∧ p.getD 0 0 = 48 ∧ (p.getD 1 0 = 98 ∨ p.getD 1 0 = 66) ∧
    digitValue (p.getD 2 0) < 2 then
    (2, p.drop 2)
  else (plainBase base (p.getD 0 0), p)

/-- The loop over the digits. The NUL is none. -/
def accumulate (base : ℕ) : Text → ℕ → Bool → ℕ × Bool × Text
  | [], acc, overflow => (acc, overflow, [])
  | c :: rest, acc, overflow =>
    if base ≤ digitValue c then (acc, overflow, c :: rest)
    else if (ullongMax - digitValue c) / base < acc then accumulate base rest acc true
    else accumulate base rest ((acc * base + digitValue c) % 2 ^ 64) overflow

structure Scan where
  acc : ℕ
  negative : Bool
  overflow : Bool
  stop : Text

/-- A base that is none gives nothing. -/
def scan (s : Text) (base : ℕ) (c23 : Bool) : Option Scan :=
  if base = 1 ∨ 36 < base then none
  else
    let (negative, p) := signOf (s.dropWhile isSpace)
    let (base, digits) := baseOf base c23 p
    let (acc, overflow, stop) := accumulate base digits 0 false
    some (if stop = digits then ⟨0, negative, overflow, s⟩ else ⟨acc, negative, overflow, stop⟩)

inductive ParseError
  | einval
  | erange
  deriving DecidableEq

/-- What a call returns, the error it sets and where it sets the end to. -/
structure Parsed where
  value : ℤ
  errno : Option ParseError
  stop : Option Text

/-- An unsigned word read as a signed one. -/
def toSigned (n : ℕ) : ℤ := if n < 2 ^ 63 then n else n - 2 ^ 64

def signedResult (s : Text) (base : ℕ) (c23 : Bool) : Parsed :=
  match scan s base c23 with
  | none => ⟨0, some .einval, none⟩
  | some found =>
    let limit := if found.negative then llongMax + 1 else llongMax
    if found.overflow ∨ limit < found.acc then
      ⟨if found.negative then -2 ^ 63 else llongMax, some .erange, some found.stop⟩
    else ⟨toSigned (if found.negative then (2 ^ 64 - found.acc) % 2 ^ 64 else found.acc), none,
      some found.stop⟩

def unsignedResult (s : Text) (base : ℕ) (c23 : Bool) : Parsed :=
  match scan s base c23 with
  | none => ⟨0, some .einval, none⟩
  | some found =>
    if found.overflow then ⟨ullongMax, some .erange, some found.stop⟩
    else ⟨((if found.negative then (2 ^ 64 - found.acc) % 2 ^ 64 else found.acc : ℕ) : ℤ), none,
      some found.stop⟩

def strtoll (s : Text) (base : ℕ) : Parsed := signedResult s base false

def strtoull (s : Text) (base : ℕ) : Parsed := unsignedResult s base false

def strtol (s : Text) (base : ℕ) : Parsed := signedResult s base false

def isoc23Strtoll (s : Text) (base : ℕ) : Parsed := signedResult s base true

def isoc23Strtoull (s : Text) (base : ℕ) : Parsed := unsignedResult s base true

def isoc23Strtol (s : Text) (base : ℕ) : Parsed := signedResult s base true

/-! ## Numbers -/

/-- What digits denote in a base. -/
def number (radix : ℕ) (digits : Text) : ℕ := digits.foldl (fun n c ↦ n * radix + digitValue c) 0

/-- The base that a letter behind a zero tells. -/
def toldBase (base : ℕ) (c23 : Bool) (x : UInt8) : Option ℕ :=
  if (base = 0 ∨ base = 16) ∧ (x = 120 ∨ x = 88) then some 16
  else if c23 ∧ (base = 0 ∨ base = 2) ∧ (x = 98 ∨ x = 66) then some 2
  else none

/-- What may stand in front of the digits, and the base they are then in. -/
inductive Lead (base : ℕ) (c23 : Bool) (digits : Text) : Text → ℕ → Prop
  | plain : Lead base c23 digits [] (plainBase base (digits.getD 0 0))
  | told {x : UInt8} {radix : ℕ} : toldBase base c23 x = some radix → Lead base c23 digits [48, x] radix

inductive Sign : Text → Bool → Prop
  | none : Sign [] false
  | plus : Sign [43] false
  | minus : Sign [45] true

/-- A number without spaces: a sign, what tells the base, and digits of that base. -/
structure Number (base : ℕ) (c23 : Bool) (sign lead digits : Text) (negative : Bool) (radix : ℕ) : Prop where
  sign : Sign sign negative
  lead : Lead base c23 digits lead radix
  some : digits ≠ []
  digit : ∀ c ∈ digits, digitValue c < radix

/-- The text is a number of this value. -/
def Denotes (base : ℕ) (c23 : Bool) (text : Text) (value : ℤ) : Prop :=
  ∃ spaces sign lead digits negative radix, text = spaces ++ (sign ++ (lead ++ digits)) ∧
    (∀ c ∈ spaces, isSpace c) ∧
    Number base c23 sign lead digits negative radix ∧
    value = if negative then -(number radix digits : ℤ) else number radix digits

/-- A beginning of the string that is a number, and none is longer. -/
structure Longest (base : ℕ) (c23 : Bool) (s text : Text) (value : ℤ) : Prop where
  begins : text <+: s
  denotes : Denotes base c23 text value
  longest : ∀ other v, other <+: s → Denotes base c23 other v → other.length ≤ text.length

variable {base r : ℕ} {c23 neg : Bool} {s sign lead ds : Text}

/-! ## The loop over the digits -/

theorem digitValue_lt {c : UInt8} (h : digitValue c < 36) : isSpace c = false ∧ c ≠ 43 ∧ c ≠ 45 := by
  have hle : 48 ≤ c := by
    unfold digitValue at h
    split_ifs at h with hdigit hsmall hlarge
    · exact hdigit.1
    · exact UInt8.le_trans (by decide) hsmall.1
    · exact UInt8.le_trans (by decide) hlarge.1
    · omega
  have hne : ∀ j : UInt8, ¬48 ≤ j → c ≠ j := fun j hj heq ↦ hj (heq ▸ hle)
  refine ⟨?_, hne 43 (by decide), hne 45 (by decide)⟩
  have hcontrol : ¬c ≤ 13 := fun hcontrol ↦ absurd (UInt8.le_trans hle hcontrol) (by decide)
  simp [isSpace, hne 32 (by decide), hcontrol]

theorem number_concat (r : ℕ) (ds : Text) (c : UInt8) :
    number r (ds ++ [c]) = number r ds * r + digitValue c := by
  simp [number]

/-- Until the digits denote too much, what they denote is there. -/
def Scanned (radix : ℕ) (digits : Text) (acc : ℕ) (overflow : Bool) : Prop :=
  if overflow then ullongMax < number radix digits else acc = number radix digits ∧ acc ≤ ullongMax

theorem scanned_nil (r : ℕ) : Scanned r [] 0 false := ⟨rfl, Nat.zero_le _⟩

theorem accumulate_spec (hradix : 2 ≤ r) (hmax : r ≤ 36) (rest seen : Text) {acc : ℕ} {overflow : Bool}
    (h : Scanned r seen acc overflow) :
    ∃ acc' overflow', accumulate r rest acc overflow =
      (acc', overflow', rest.dropWhile fun c ↦ digitValue c < r) ∧
      Scanned r (seen ++ rest.takeWhile fun c ↦ digitValue c < r) acc' overflow' := by
  induction rest generalizing seen acc overflow with
  | nil => exact ⟨acc, overflow, rfl, by simpa using h⟩
  | cons c rest ih =>
    by_cases hdigit : digitValue c < r
    · rw [accumulate, if_neg (Nat.not_le.mpr hdigit), takeWhile_cons_of_pos (by simpa using hdigit),
        dropWhile_cons_of_pos (by simpa using hdigit), append_cons]
      have hword : digitValue c ≤ ullongMax := Nat.le_of_lt (hdigit.trans_le (hmax.trans (by decide)))
      have hgrows : number r seen ≤ number r (seen ++ [c]) := by
        rw [number_concat]
        exact Nat.le_add_right_of_le (Nat.le_mul_of_pos_right _ (by omega))
      split
      · next hlarge =>
        refine ih (seen ++ [c]) (?_ : ullongMax < _)
        cases overflow with
        | true => exact Nat.lt_of_lt_of_le h hgrows
        | false =>
          rw [Nat.div_lt_iff_lt_mul (by omega), h.1] at hlarge
          rw [number_concat]
          omega
      · next hsmall =>
        refine ih (seen ++ [c]) ?_
        cases overflow with
        | true => exact Nat.lt_of_lt_of_le h hgrows
        | false =>
          rw [Nat.not_lt, Nat.le_div_iff_mul_le (by omega)] at hsmall
          have hfits : acc * r + digitValue c ≤ ullongMax := by omega
          rw [Nat.mod_eq_of_lt (Nat.lt_of_le_of_lt hfits (by decide))]
          exact ⟨by rw [number_concat, ← h.1], hfits⟩
    · refine ⟨acc, overflow, ?_, ?_⟩
      · rw [accumulate, if_pos (Nat.not_lt.mp hdigit), dropWhile_cons_of_neg (by simpa using hdigit)]
      · rwa [takeWhile_cons_of_neg (by simpa using hdigit), append_nil]

/-! ## How a number begins -/

theorem toldBase_eq {x : UInt8} (h : toldBase base c23 x = some r) :
    (r = 16 ∨ r = 2) ∧ plainBase base 48 ≤ digitValue x := by
  unfold toldBase at h
  split_ifs at h with hhex hbinary
  · cases h
    obtain ⟨rfl | rfl, rfl | rfl⟩ := hhex <;> exact ⟨.inl rfl, by decide⟩
  · cases h
    obtain ⟨_, rfl | rfl, rfl | rfl⟩ := hbinary <;> exact ⟨.inr rfl, by decide⟩

/-- A base is told in front of the digits only where one of them follows. -/
theorem baseOf_cases (base : ℕ) (c23 : Bool) (p : Text) :
    (∃ x c rest r, p = 48 :: x :: c :: rest ∧ toldBase base c23 x = some r ∧ digitValue c < r ∧
      baseOf base c23 p = (r, c :: rest)) ∨
    (∀ x c rest r, p = 48 :: x :: c :: rest → toldBase base c23 x = some r → r ≤ digitValue c) ∧
      baseOf base c23 p = (plainBase base (p.getD 0 0), p) := by
  have hnul : digitValue 0 = 99 := rfl
  rcases p with _ | ⟨a, _ | ⟨x, _ | ⟨c, rest⟩⟩⟩
  · exact .inr ⟨by simp, by simp [baseOf]⟩
  · exact .inr ⟨by simp, by simp [baseOf, hnul]⟩
  · exact .inr ⟨by simp, by simp [baseOf, hnul]⟩
  · by_cases htold : a = 48 ∧ ∃ r, toldBase base c23 x = some r ∧ digitValue c < r
    · obtain ⟨rfl, r, htold, hlt⟩ := htold
      refine .inl ⟨x, c, rest, r, rfl, htold, hlt, ?_⟩
      unfold toldBase at htold
      split_ifs at htold with hhex hbinary <;> cases htold <;> simp_all [baseOf]
    · refine .inr ⟨?_, ?_⟩
      · rintro _ _ _ r heq hradix
        cases heq
        by_contra hlt
        exact htold ⟨rfl, r, hradix, Nat.not_le.mp hlt⟩
      · unfold baseOf
        split_ifs with hhex hbinary
        · exact absurd ⟨hhex.2.1, 16, if_pos ⟨hhex.1, hhex.2.2.1⟩, hhex.2.2.2⟩ htold
        · obtain ⟨h23, hbase, hzero, hx, hlt⟩ := hbinary
          refine absurd ⟨hzero, 2, ?_, hlt⟩ htold
          change x = 98 ∨ x = 66 at hx
          rcases hx with rfl | rfl <;> simp [toldBase, h23, hbase]
        · rfl

theorem Lead.radix_bounds (h : Lead base c23 ds lead r) (hbase : ¬(base = 1 ∨ 36 < base)) :
    2 ≤ r ∧ r ≤ 36 := by
  cases h with
  | plain =>
    unfold plainBase
    split_ifs <;> omega
  | told htold =>
    have hradix := (toldBase_eq htold).1
    omega

variable (h : Number base c23 sign lead ds neg r)
include h

/-- A number does not begin with a space, and its sign is read off. -/
theorem Number.signOf_eq (hbase : ¬(base = 1 ∨ 36 < base)) (tail : Text) :
    (sign ++ (lead ++ ds) ++ tail).dropWhile isSpace = sign ++ (lead ++ ds) ++ tail ∧
      signOf (sign ++ (lead ++ ds) ++ tail) = (neg, lead ++ ds ++ tail) := by
  obtain ⟨c, rest, hrest, hspace, hplus, hminus⟩ : ∃ c rest, lead ++ ds ++ tail = c :: rest ∧
    isSpace c = false ∧
      c ≠ 43 ∧ c ≠ 45 := by
    obtain ⟨c, rest, rfl⟩ := exists_cons_of_ne_nil h.some
    cases h.lead with
    | told => exact ⟨48, _, rfl, by decide⟩
    | plain =>
      exact ⟨c, _, rfl, digitValue_lt ((h.digit c mem_cons_self).trans_le (h.lead.radix_bounds hbase).2)⟩
  rw [append_assoc, hrest]
  cases h.sign with
  | none => simp [signOf, hspace, hplus, hminus]
  | plus | minus => exact ⟨rfl, rfl⟩

/-- The base is the one that the number has, unless the number is only the zero of a longer one that
tells its base. -/
theorem Number.baseOf_eq (tail : Text) :
    baseOf base c23 (lead ++ ds ++ tail) = (r, ds ++ tail) ∨
      (lead ++ ds).length = 1 ∧ ∃ x c rest radix', lead ++ ds ++ tail = 48 :: x :: c :: rest ∧
        baseOf base c23 (lead ++ ds ++ tail) = (radix', c :: rest) ∧ digitValue c < radix' := by
  obtain ⟨a, more, rfl⟩ := exists_cons_of_ne_nil h.some
  have ha := h.digit a mem_cons_self
  rcases baseOf_cases base c23 (lead ++ a :: more ++ tail)
    with ⟨x, c, rest, radix', hp, htold, hlt, heq⟩ | ⟨hnone, heq⟩
  · cases h.lead with
    | told hradix =>
      cases hp
      cases htold.symm.trans hradix
      exact .inl heq
    | plain =>
      refine .inr ⟨?_, x, c, rest, radix', hp, heq, hlt⟩
      cases more with
      | nil => rfl
      | cons b more =>
        obtain ⟨rfl, rfl, _⟩ : a = 48 ∧ b = x ∧ more ++ tail = c :: rest := by simpa using hp
        exact absurd (h.digit b (by simp)) (Nat.not_lt.mpr (toldBase_eq htold).2)
  · left
    cases h.lead with
    | told hradix => exact absurd ha (Nat.not_lt.mpr (hnone _ _ _ _ rfl hradix))
    | plain => exact heq

omit h

/-! ## The longest number -/

/-- Where the digits of a string begin, with their sign and base. -/
def digitsOf (base : ℕ) (c23 : Bool) (s : Text) : Bool × ℕ × Text :=
  let (negative, p) := signOf (s.dropWhile isSpace)
  (negative, baseOf base c23 p)

/-- A number that a string begins with has the digits that the scan finds, or it is the
zero before them. -/
theorem Denotes.digitsOf_eq {text : Text} {v : ℤ} (h : Denotes base c23 text v)
    (hbase : ¬(base = 1 ∨ 36 < base)) (tail : Text) :
    ∃ neg r q, digitsOf base c23 (text ++ tail) = (neg, r, q) ∧
      ((∃ ds, q = ds ++ tail ∧ ds ≠ [] ∧ (∀ c ∈ ds, digitValue c < r) ∧
          v = if neg then -(number r ds : ℤ) else number r ds) ∨
        ∃ c rest, q = c :: rest ∧ digitValue c < r ∧ rest.length < tail.length) := by
  obtain ⟨spaces, sign, lead, ds, neg, r, rfl, hspaces, hnumber, rfl⟩ := h
  obtain ⟨hdrop, hsign⟩ := hnumber.signOf_eq hbase tail
  have hskip : (spaces ++ (sign ++ (lead ++ ds)) ++ tail).dropWhile isSpace = sign ++
    (lead ++ ds) ++ tail := by
    rw [append_assoc, dropWhile_append_of_pos hspaces, hdrop]
  simp only [digitsOf, hskip, hsign]
  rcases hnumber.baseOf_eq tail with heq | ⟨hone, x, c, rest, radix', hp, heq, hlt⟩
  · exact ⟨neg, r, ds ++ tail, by rw [heq], .inl ⟨ds, rfl, hnumber.some, hnumber.digit, rfl⟩⟩
  · refine ⟨neg, radix', c :: rest, by rw [heq], .inr ⟨c, rest, rfl, hlt, ?_⟩⟩
    have hlen := congrArg length hp
    rw [length_append, hone, length_cons, length_cons, length_cons] at hlen
    omega

theorem signOf_split (p : Text) : ∃ sign, Sign sign (signOf p).1 ∧ p = sign ++ (signOf p).2 := by
  cases p with
  | nil => exact ⟨[], .none, rfl⟩
  | cons c rest =>
    simp only [signOf]
    split_ifs with hsign
    · rcases hsign with rfl | rfl
      · exact ⟨[43], .plus, rfl⟩
      · exact ⟨[45], .minus, rfl⟩
    · exact ⟨[], .none, rfl⟩

/-- Digits that the scan finds make a number with what is in front of them. -/
theorem exists_denotes {stop : Text} (hq : digitsOf base c23 s = (neg, r, ds ++ stop)) (hsome : ds ≠ [])
    (hdigit : ∀ c ∈ ds, digitValue c < r) :
    ∃ text, s = text ++ stop ∧
      Denotes base c23 text (if neg then -(number r ds : ℤ) else number r ds) := by
  obtain ⟨sign, hsign, hp⟩ := signOf_split (s.dropWhile isSpace)
  simp only [digitsOf, Prod.mk.injEq] at hq
  obtain ⟨rfl, hq⟩ := hq
  obtain ⟨lead, hlead, hsplit⟩ : ∃ lead, Lead base c23 ds lead r ∧
      (signOf (s.dropWhile isSpace)).2 = lead ++ (ds ++ stop) := by
    rcases baseOf_cases base c23 (signOf (s.dropWhile isSpace)).2
      with ⟨x, c, rest, radix', hp, htold, _, heq⟩ | ⟨_, heq⟩
    · obtain ⟨rfl, hrest⟩ := Prod.mk.inj (heq.symm.trans hq)
      exact ⟨[48, x], .told htold, by rw [hp, ← hrest]; rfl⟩
    · obtain ⟨rfl, hrest⟩ := Prod.mk.inj (heq.symm.trans hq)
      obtain ⟨c, rest, rfl⟩ := exists_cons_of_ne_nil hsome
      rw [hrest]
      exact ⟨[], .plain, rfl⟩
  refine ⟨s.takeWhile isSpace ++ (sign ++ (lead ++ ds)), ?_, _, sign, lead, ds, _, r, rfl,
    fun c hc ↦ mem_takeWhile_imp hc, ⟨hsign, hlead, hsome, hdigit⟩, rfl⟩
  calc s = s.takeWhile isSpace ++ s.dropWhile isSpace := takeWhile_append_dropWhile.symm
    _ = s.takeWhile isSpace ++ (sign ++ (lead ++ (ds ++ stop))) := by rw [← hsplit, ← hp]
    _ = _ := by simp

theorem scan_eq (hbase : ¬(base = 1 ∨ 36 < base)) (s : Text) (c23 : Bool) :
    ∃ neg r ds stop acc overflow, digitsOf base c23 s = (neg, r, ds ++ stop) ∧
      (∀ c ∈ ds, digitValue c < r) ∧ (∀ c ∈ stop.head?, r ≤ digitValue c) ∧
      Scanned r ds acc overflow ∧
      scan s base c23 = some (if ds = [] then ⟨0, neg, false, s⟩ else ⟨acc, neg, overflow, stop⟩) := by
  rcases hsign : signOf (s.dropWhile isSpace) with ⟨neg, p⟩
  rcases hq : baseOf base c23 p with ⟨r, q⟩
  have hbounds : 2 ≤ r ∧ r ≤ 36 := by
    rcases baseOf_cases base c23 p with ⟨_, _, _, _, _, htold, _, heq⟩ | ⟨_, heq⟩ <;>
      obtain ⟨rfl, _⟩ := Prod.mk.inj (hq.symm.trans heq)
    · exact (Lead.told htold : Lead base c23 [] _ _).radix_bounds hbase
    · exact (Lead.plain : Lead base c23 p _ _).radix_bounds hbase
  obtain ⟨acc, overflow, hacc, hscanned⟩ := accumulate_spec hbounds.1 hbounds.2 q [] (scanned_nil r)
  rw [nil_append] at hscanned
  have hsplit : (q.takeWhile fun c ↦ digitValue c < r) ++ q.dropWhile (fun c ↦ digitValue c < r) = q :=
    takeWhile_append_dropWhile
  refine ⟨neg, r, _, q.dropWhile fun c ↦ digitValue c < r, acc, overflow, ?_, fun c hc ↦ ?_, fun c hc ↦ ?_,
    hscanned, ?_⟩
  · simp only [digitsOf, hsign, hq, hsplit]
  · simpa using mem_takeWhile_imp hc
  · have hstop := head?_dropWhile_not (fun c ↦ decide (digitValue c < r)) q
    rw [Option.mem_def.mp hc] at hstop
    simpa using hstop
  · simp only [scan, if_neg hbase, hsign, hq, hacc]
    by_cases hnone : (q.takeWhile fun c ↦ digitValue c < r) = []
    · rw [hnone] at hsplit hscanned
      rw [if_pos (by simpa using hsplit), if_pos hnone]
      cases overflow with
      | false => rfl
      | true => exact absurd hscanned (Nat.not_lt_zero _)
    · rw [if_neg hnone, if_neg]
      intro hsame
      rw [hsame] at hsplit
      exact hnone (append_left_eq_self.mp hsplit)

theorem toSigned_negated {n : ℕ} (h : n ≤ 2 ^ 63) : toSigned ((2 ^ 64 - n) % 2 ^ 64) = -n := by
  unfold toSigned
  rcases Nat.eq_zero_or_pos n with rfl | hpos
  · rfl
  · rw [Nat.mod_eq_of_lt (by omega), if_neg (by omega)]
    omega

theorem signedResult_eq {x : Scan} {v : ℤ} (hscan : scan s base c23 = some x)
    (hscanned : Scanned r ds x.acc x.overflow)
    (hv : v = if x.negative then -(number r ds : ℤ) else number r ds) :
    signedResult s base c23 = ⟨max (-2 ^ 63) (min llongMax v),
      if -2 ^ 63 ≤ v ∧ v ≤ llongMax then none else some .erange, some x.stop⟩ := by
  have hmax : llongMax = 2 ^ 63 - 1 := rfl
  obtain ⟨acc, neg, overflow, stop⟩ := x
  have hclamp : (overflow = true ∨ (if neg then llongMax + 1 else llongMax) < acc) ↔
      ¬(-2 ^ 63 ≤ v ∧ v ≤ llongMax) := by
    subst hv
    cases overflow with
    | true =>
      have hlarge : 2 ^ 64 - 1 < number r ds := hscanned
      cases neg <;> simp only [true_or, true_iff, if_true, if_false, Bool.false_eq_true] <;> omega
    | false =>
      obtain ⟨rfl, _⟩ := hscanned
      cases neg <;> simp only [Bool.false_eq_true, false_or, if_true, if_false] <;> omega
  simp only [signedResult, hscan, hclamp]
  by_cases hrange : -2 ^ 63 ≤ v ∧ v ≤ llongMax
  · have hacc : acc = number r ds := by
      cases overflow with
      | true => exact absurd hrange (hclamp.mp (.inl rfl))
      | false => exact hscanned.1
    rw [if_neg (not_not.mpr hrange), if_pos hrange, min_eq_right hrange.2, max_eq_right hrange.1, hv, hacc]
    rw [hv] at hrange
    congr 1
    cases neg with
    | true => exact toSigned_negated (by simp only [if_true] at hrange; omega)
    | false =>
      simp only [Bool.false_eq_true, if_false] at hrange ⊢
      exact if_pos (by omega)
  · rw [if_pos hrange, if_neg hrange]
    congr 1
    cases neg <;> simp only [if_true, Bool.false_eq_true, if_false] at hv ⊢ <;> omega

theorem unsignedResult_eq {x : Scan} {v : ℤ} (hscan : scan s base c23 = some x)
    (hscanned : Scanned r ds x.acc x.overflow)
    (hv : v = if x.negative then -(number r ds : ℤ) else number r ds) :
    unsignedResult s base c23 = ⟨if ullongMax < v.natAbs then ullongMax else v % 2 ^ 64,
      if ullongMax < v.natAbs then some .erange else none, some x.stop⟩ := by
  obtain ⟨acc, neg, overflow, stop⟩ := x
  have habs : v.natAbs = number r ds := by
    cases neg <;> simp [hv]
  have hword : ullongMax = 2 ^ 64 - 1 := rfl
  cases overflow with
  | true =>
    have hlarge : ullongMax < number r ds := hscanned
    simp only [unsignedResult, hscan, habs, if_pos hlarge, if_true]
  | false =>
    obtain ⟨hacc, hfits⟩ : acc = number r ds ∧ acc ≤ ullongMax := hscanned
    simp only [unsignedResult, hscan, habs, if_neg (Nat.not_lt.mpr (hacc ▸ hfits)),
      Bool.false_eq_true, if_false, hacc]
    congr 1
    cases neg <;> simp only [if_true, Bool.false_eq_true, if_false] at hv ⊢ <;> omega

/-- The result of a call is what the longest number in front denotes, clamped, and the error says
that it was; the end is behind that number. Where there is no number nothing is read. -/
theorem strto_exact (hbase : base = 0 ∨ 2 ≤ base ∧ base ≤ 36) (s : Text) (c23 : Bool) :
    (∀ text value, text <+: s → ¬Denotes base c23 text value) ∧ signedResult s base c23 =
      ⟨0, none, some s⟩ ∧
        unsignedResult s base c23 = ⟨0, none, some s⟩ ∨
      (∃ text value, Longest base c23 s text value) ∧ ∀ text value, Longest base c23 s text value →
        signedResult s base c23 = ⟨max (-2 ^ 63) (min llongMax value),
          if -2 ^ 63 ≤ value ∧ value ≤ llongMax then none else some .erange, some (s.drop text.length)⟩ ∧
        unsignedResult s base c23 = ⟨if ullongMax < value.natAbs then ullongMax else value % 2 ^ 64,
          if ullongMax < value.natAbs then some .erange else none, some (s.drop text.length)⟩ := by
  have hvalid : ¬(base = 1 ∨ 36 < base) := by omega
  obtain ⟨neg, r, ds, stop, acc, overflow, hdigits, hlow, hstop, hscanned, hscan⟩ :=
    scan_eq hvalid s c23
  by_cases hnone : ds = []
  · subst hnone
    have hzero : (0 : ℤ) = if neg then -(number r [] : ℤ) else number r [] := by simp [number]
    refine .inl ⟨fun text value hbegins hdenotes ↦ ?_, signedResult_eq hscan (scanned_nil r) hzero,
      unsignedResult_eq hscan (scanned_nil r) hzero⟩
    obtain ⟨tail, rfl⟩ := hbegins
    obtain ⟨_, _, _, hq, hcases⟩ := hdenotes.digitsOf_eq hvalid tail
    cases hdigits.symm.trans hq
    rcases hcases with ⟨more, rfl, hsome, hmore, _⟩ | ⟨c, rest, rfl, hlt, _⟩
    · obtain ⟨c, rest, rfl⟩ := exists_cons_of_ne_nil hsome
      exact absurd (hmore c mem_cons_self) (Nat.not_lt.mpr (hstop c rfl))
    · exact absurd hlt (Nat.not_lt.mpr (hstop c rfl))
  · right
    rw [if_neg hnone] at hscan
    obtain ⟨own, rfl, hown⟩ := exists_denotes hdigits hnone hlow
    have hlongest : ∀ text value, text <+: own ++ stop → Denotes base c23 text value → text.length ≤
      own.length ∧
        (text.length = own.length → value = if neg then -(number r ds : ℤ) else number r ds) := by
      rintro text value ⟨tail, htail⟩ hdenotes
      have hlength := congrArg length htail
      rw [length_append, length_append] at hlength
      obtain ⟨_, _, _, hq, hcases⟩ := hdenotes.digitsOf_eq hvalid tail
      rw [htail] at hq
      cases hdigits.symm.trans hq
      rcases hcases with ⟨more, heq, _, hmore, rfl⟩ | ⟨c, rest, heq, _, hshort⟩
      · rcases append_eq_append_iff.mp heq with ⟨rest, rfl, rfl⟩ | ⟨rest, rfl, rfl⟩
        · cases rest with
          | nil => simp at hlength ⊢; omega
          | cons c rest => exact absurd (hmore c (by simp)) (Nat.not_lt.mpr (hstop c rfl))
        · rw [length_append] at hlength
          refine ⟨by omega, fun hsame ↦ ?_⟩
          obtain rfl : rest = [] := eq_nil_of_length_eq_zero (by omega)
          simp
      · obtain ⟨x, more, rfl⟩ := exists_cons_of_ne_nil hnone
        have hrest := congrArg length heq
        simp only [length_cons, length_append, cons_append] at hrest
        exact ⟨by omega, fun hsame ↦ by omega⟩
    refine ⟨⟨own, _, prefix_append _ _, hown,
      fun other v hother hv ↦ (hlongest other v hother hv).1⟩, fun text value h ↦ ?_⟩
    have hlength : text.length = own.length :=
      le_antisymm (hlongest text value h.begins h.denotes).1 (h.longest own _ (prefix_append _ _) hown)
    have hvalue := (hlongest text value h.begins h.denotes).2 hlength
    rw [hlength, drop_left]
    exact ⟨signedResult_eq hscan hscanned hvalue, unsignedResult_eq hscan hscanned hvalue⟩

/-- `-0x1f,` -/
theorem strto_exact_hex : ∃ text value, Longest 16 false [45, 48, 120, 49, 102, 44] text value ∧
    signedResult [45, 48, 120, 49, 102, 44] 16 false = ⟨max (-2 ^ 63) (min llongMax value),
      if -2 ^ 63 ≤ value ∧ value ≤ llongMax then none else some .erange,
      some (drop text.length [45, 48, 120, 49, 102, 44])⟩ := by
  rcases strto_exact (.inr (by decide) : 16 = 0 ∨ 2 ≤ 16 ∧ 16 ≤ 36) [45, 48, 120, 49, 102, 44] false with
    ⟨_, hnothing, _⟩ | ⟨⟨text, value, hlongest⟩, hall⟩
  · exact absurd (congrArg Parsed.value hnothing) (by decide)
  · exact ⟨text, value, hlongest, (hall text value hlongest).1⟩

end DotnetPal.Freestanding
