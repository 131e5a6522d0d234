import DotnetPal.Freestanding.Strtol
import Mathlib.Data.List.GetD

/-!
# Integers of sscanf

`scan_integer` of `crates/dotnet-pal-build/native/freestanding/scanf.c`, which reads a number
without spaces in front and at most `width` bytes of it. It is written apart from `strtol.c`, with
an index and a limit; here it is shown to read what `strtol.c` reads. Every read is of a byte of the
string or of its NUL, or the call has no result.
-/

open List Option

namespace DotnetPal.Freestanding.Sscanf

def sizeMax : ℕ := 2 ^ 64 - 1

/-- `p[i]`; nothing behind the NUL. -/
def byte (p : Text) (i : ℕ) : Option UInt8 := (p ++ [0])[i]?

def digitValue (c : UInt8) : ℕ :=
  if 48 ≤ c ∧ c ≤ 57 then c.toNat - 48
  else if 97 ≤ c ∧ c ≤ 102 then c.toNat - 97 + 10
  else if 65 ≤ c ∧ c ≤ 70 then c.toNat - 65 + 10
  else 99

/-- The sign, and the index behind it. -/
def sign (p : Text) (limit : ℕ) : Option (Bool × ℕ) :=
  if 0 < limit then (byte p 0).map fun c ↦ if c = 43 ∨ c = 45 then (c = 45, 1) else (false, 0)
  else some (false, 0)

/-- A zero, a letter and a digit within the limit; each is read where the one before is as
it should be. -/
def tells (p : Text) (limit i : ℕ) (asked : Bool) (lower upper : UInt8) (radix : ℕ) : Option Bool :=
  if asked ∧ i + 2 < limit then
    (byte p i).bind fun zero ↦
      if zero = 48 then
        (byte p (i + 1)).bind fun letter ↦
          if letter = lower ∨ letter = upper then (byte p (i + 2)).map fun c ↦ digitValue c < radix
          else some false
      else some false
  else some false

/-- The base of the digits, and the index where they begin. -/
def radixAt (p : Text) (limit base : ℕ) (c23 : Bool) (i : ℕ) : Option (ℕ × ℕ) :=
  (tells p limit i (base = 0 ∨ base = 16) 120 88 16).bind fun hex ↦
    if hex then some (16, i + 2)
    else
      (tells p limit i (c23 ∧ (base = 0 ∨ base = 2)) 98 66 2).bind fun binary ↦
        if binary then some (2, i + 2)
        else if base = 0 then (byte p i).map fun c ↦ (if c = 48 then 8 else 10, i)
        else some (base, i)

/-- The loop over the digits from index `i` on, with the bytes that are left before the NUL. -/
def accumulate (limit base : ℕ) : Text → (i acc : ℕ) → (overflow : Bool) → Option (ℕ × ℕ × Bool)
  | [], i, acc, overflow => if limit ≤ i ∨ base ≤ digitValue 0 then some (i, acc, overflow) else none
  | c :: rest, i, acc, overflow =>
    if limit ≤ i ∨ base ≤ digitValue c then some (i, acc, overflow)
    else if (ullongMax - digitValue c) / base < acc then accumulate limit base rest (i + 1) acc true
    else accumulate limit base rest (i + 1) ((acc * base + digitValue c) % 2 ^ 64) overflow

/-- The word that is stored. -/
def result (isSigned negative overflow : Bool) (acc : ℕ) : ℕ :=
  if isSigned then
    if overflow ∨ (if negative then llongMax + 1 else llongMax) < acc then
      if negative then 2 ^ 63 else llongMax
    else if negative then (2 ^ 64 - acc) % 2 ^ 64 else acc
  else if overflow then ullongMax
  else if negative then (2 ^ 64 - acc) % 2 ^ 64 else acc

/-- The number of bytes consumed, and the word stored where there are any. -/
def scanInteger (p : Text) (width base : ℕ) (isSigned c23 : Bool) : Option (ℕ × Option ℕ) := do
  let limit := if width ≠ 0 then width else sizeMax
  let (negative, i) ← sign p limit
  let (base, start) ← radixAt p limit base c23 i
  let (i, acc, overflow) ← accumulate limit base (p.drop start) start 0 false
  return if i = start then (0, none) else (i, some (result isSigned negative overflow acc))

/-! ## The bytes within the limit -/

variable {p : Text} {limit base i : ℕ} {c23 : Bool}

theorem digitValue_eq (c : UInt8) :
    digitValue c = if Freestanding.digitValue c < 16 then Freestanding.digitValue c else 99 := by
  simp only [digitValue, Freestanding.digitValue, UInt8.le_iff_toNat_le, UInt8.reduceToNat]
  split_ifs <;> omega

theorem byte_eq (h : i ≤ p.length) : byte p i = some (p.getD i 0) := by
  unfold byte
  rcases Nat.lt_or_eq_of_le h with hlt | rfl
  · rw [getElem?_append_left hlt, getD_eq_getElem?_getD, getElem?_eq_getElem hlt, getD_some]
  · simp

theorem getD_drop_take (k : ℕ) :
    ((p.take limit).drop i).getD k 0 = if i + k < limit then p.getD (i + k) 0 else 0 := by
  simp only [getD_eq_getElem?_getD, getElem?_drop, getElem?_take]
  split_ifs <;> rfl

theorem sign_eq (hlimit : 0 < limit) :
    ∃ i, sign p limit = some ((signOf (p.take limit)).1, i) ∧ (signOf (p.take limit)).2 =
      (p.take limit).drop i ∧
      i ≤ p.length := by
  obtain ⟨room, rfl⟩ := Nat.exists_eq_add_of_lt hlimit
  rw [sign, if_pos hlimit, byte_eq (Nat.zero_le _)]
  cases p with
  | nil => exact ⟨0, rfl, rfl, le_rfl⟩
  | cons c rest =>
    by_cases hsign : c = 43 ∨ c = 45
    · exact ⟨1, by simp [signOf, hsign], by simp [signOf, hsign], by simp⟩
    · exact ⟨0, by simp [signOf, hsign], by simp [signOf, hsign], by simp⟩

/-- A byte that is not the NUL has one behind it. -/
theorem succ_le_length (hi : i ≤ p.length) (h : p.getD i 0 ≠ 0) : i + 1 ≤ p.length := by
  by_contra hend
  exact h (getD_eq_default _ _ (by omega))

/-- What is read to tell a base is what `strtol.c` looks at in the bytes within the limit. -/
theorem tells_eq {asked : Bool} {lower upper : UInt8} {radix : ℕ} (hi : i ≤ p.length) (hradix : radix ≤ 16)
    (hlower : lower ≠ 0) (hupper : upper ≠ 0) :
    tells p limit i asked lower upper radix = some (decide (asked ∧ ((p.take limit).drop i).getD 0 0 = 48 ∧
      (((p.take limit).drop i).getD 1 0 = lower ∨ ((p.take limit).drop i).getD 1 0 = upper) ∧
      Freestanding.digitValue (((p.take limit).drop i).getD 2 0) < radix)) := by
  have hdigit : ∀ c, digitValue c < radix ↔ Freestanding.digitValue c < radix := by
    intro c
    rw [digitValue_eq]
    split_ifs <;> omega
  simp only [getD_drop_take]
  by_cases hread : asked = true ∧ i + 2 < limit
  · rw [tells, if_pos hread, byte_eq hi, bind_some, if_pos (show i + 0 < limit by omega),
      if_pos (show i + 1 < limit by omega), if_pos hread.2]
    by_cases hzero : p.getD i 0 = 48
    · have hnext := succ_le_length hi (hzero ▸ by decide)
      rw [if_pos hzero, byte_eq hnext, bind_some]
      by_cases hletter : p.getD (i + 1) 0 = lower ∨ p.getD (i + 1) 0 = upper
      · have hlast := succ_le_length hnext (by rcases hletter with heq | heq <;> rwa [heq])
        simp only [hread.1, hletter, byte_eq hlast, hdigit, Nat.add_zero, hzero, if_true, map_some,
          true_and]
      · simp only [hletter, if_false, false_and, and_false, decide_false]
    · simp only [hzero, Nat.add_zero, if_false, false_and, and_false, decide_false]
  · have hnul : ¬Freestanding.digitValue 0 < radix := fun hlt ↦ absurd (hlt.trans_le hradix) (by decide)
    rw [tells, if_neg hread]
    by_cases hroom : i + 2 < limit
    · have hasked : asked = false := Bool.eq_false_iff.mpr fun hasked ↦ hread ⟨hasked, hroom⟩
      simp only [hasked, Bool.false_eq_true, false_and, decide_false]
    · simp only [hroom, hnul, and_false, if_false, decide_false]

/-- The base may differ from the one `strtol.c` finds where no digit is within the limit. -/
theorem radixAt_eq (limit : ℕ) (c23 : Bool) (hi : i ≤ p.length) (hbase : base ≤ 16) :
    ∃ radix start, radixAt p limit base c23 i = some (radix, start) ∧ start ≤ p.length ∧ radix ≤ 16 ∧
      ((baseOf base c23 ((p.take limit).drop i)).2 = (p.take limit).drop start) ∧
      (start < limit → (baseOf base c23 ((p.take limit).drop i)).1 = radix) := by
  have htold : ∀ {radix}, radix ≤ 16 → Freestanding.digitValue (((p.take limit).drop i).getD 2 0) < radix →
      i + 2 ≤ p.length := by
    intro radix hradix hdigit
    by_contra hend
    have hnul : ((p.take limit).drop i).getD 2 0 = 0 := by
      rw [getD_drop_take, getD_eq_default _ _ (by omega), ite_self]
    exact absurd ((hnul ▸ hdigit).trans_le hradix) (by decide)
  unfold radixAt baseOf
  rw [tells_eq hi le_rfl (by decide) (by decide), tells_eq hi (by decide) (by decide) (by decide)]
  simp only [bind_some, decide_eq_true_eq, and_assoc]
  split_ifs with hhex hbinary hzero
  · exact ⟨16, i + 2, rfl, htold le_rfl hhex.2.2.2, le_rfl, by simp, fun _ ↦ rfl⟩
  · exact ⟨2, i + 2, rfl, htold (by decide) hbinary.2.2.2.2, by decide, by simp, fun _ ↦ rfl⟩
  · refine ⟨if p.getD i 0 = 48 then 8 else 10,
      i, by rw [byte_eq hi]; rfl, hi, by split_ifs <;> decide, rfl, fun hroom ↦ ?_⟩
    rw [plainBase, if_pos hzero, getD_drop_take, Nat.add_zero, if_pos hroom]
  · exact ⟨base, i, rfl, hi, hbase, rfl, fun _ ↦ if_neg hzero⟩

/-- The loops of the two files stop at one byte with one value. -/
theorem accumulate_eq (limit : ℕ) (hbase : base ≤ 16) (rest : Text) (i acc : ℕ) (overflow : Bool) :
    ∃ n acc' overflow', accumulate limit base rest i acc overflow = some (i + n, acc', overflow') ∧
      Freestanding.accumulate base (rest.take (limit - i)) acc overflow =
        (acc', overflow', (rest.take (limit - i)).drop n) ∧
      n ≤ (rest.take (limit - i)).length := by
  have hdigit : ∀ c, Freestanding.digitValue c < base → digitValue c = Freestanding.digitValue c :=
    fun c hlt ↦ by
    rw [digitValue_eq, if_pos (hlt.trans_le hbase)]
  have hnone : ∀ c, base ≤ Freestanding.digitValue c → base ≤ digitValue c := by
    intro c hle
    rw [digitValue_eq]
    split_ifs <;> omega
  induction rest generalizing i acc overflow with
  | nil =>
    exact ⟨0, acc, overflow, if_pos (.inr (hbase.trans (by decide))),
      by simp [Freestanding.accumulate], by simp⟩
  | cons c rest ih =>
    rcases Nat.lt_or_ge i limit with hroom | hfull
    · obtain ⟨room, hroom'⟩ : ∃ room, limit - i = room + 1 := ⟨limit - i - 1, by omega⟩
      have hnext : limit - (i + 1) = room := by omega
      rw [hroom', take_succ_cons, accumulate, Freestanding.accumulate]
      by_cases hstop : base ≤ Freestanding.digitValue c
      · rw [if_pos (.inr (hnone c hstop)), if_pos hstop]
        exact ⟨0, acc, overflow, rfl, rfl, Nat.zero_le _⟩
      · rw [hdigit c (Nat.not_le.mp hstop), if_neg (by omega), if_neg hstop, ← hnext]
        split_ifs
        · obtain ⟨n, acc', overflow', hleft, hright, hn⟩ := ih (i + 1) acc true
          exact ⟨n + 1, acc', overflow', by rw [hleft]; congr 2; omega, hright, Nat.succ_le_succ hn⟩
        · obtain ⟨n, acc', overflow', hleft, hright, hn⟩ := ih (i + 1) _ overflow
          exact ⟨n + 1, acc', overflow', by rw [hleft]; congr 2; omega, hright, Nat.succ_le_succ hn⟩
    · rw [accumulate, if_pos (.inl hfull), Nat.sub_eq_zero_of_le hfull]
      exact ⟨0, acc, overflow, rfl, rfl, le_rfl⟩

/-- What a number in front of a text gives, as `strtol.c` reads it. -/
def taken (text : Text) (base : ℕ) (isSigned c23 : Bool) : ℕ × Option ℕ :=
  let (negative, p) := signOf text
  let (base, digits) := baseOf base c23 p
  let (acc, overflow, stop) := Freestanding.accumulate base digits 0 false
  if stop = digits then (0, none)
  else (text.length - stop.length, some (result isSigned negative overflow acc))

theorem scanInteger_eq (hbase : base ≤ 16) (width : ℕ) (isSigned : Bool)
    (hlimit : limit = if width ≠ 0 then width else sizeMax) :
    scanInteger p width base isSigned c23 = some (taken (p.take limit) base isSigned c23) := by
  have hpos : 0 < limit := by
    subst hlimit
    split_ifs with hwidth
    · exact Nat.pos_of_ne_zero hwidth
    · decide
  obtain ⟨i, hsign, hrest, hi⟩ := sign_eq (p := p) hpos
  obtain ⟨radix, start, hradix, hstart, hle, hdigits, hsame⟩ := radixAt_eq limit c23 hi hbase
  obtain ⟨n, acc, overflow, hleft, hright, hn⟩ := accumulate_eq limit hle (p.drop start) start 0 false
  rw [← drop_take] at hright hn
  simp only [scanInteger, ← hlimit, hsign, bind_eq_bind, bind_some, hradix, hleft, taken, hrest, hdigits]
  rcases Nat.lt_or_ge start limit with hroom | hfull
  · rw [hsame hroom, hright]
    have hlen : (p.take limit).length = min limit p.length := length_take
    rw [length_drop] at hn
    simp only [drop_drop, length_drop]
    rcases Nat.eq_zero_or_pos n with rfl | hpos
    · simp
    · rw [if_neg (by omega), if_neg]
      · congr 2
        omega
      · intro heq
        have hsame := congrArg length heq
        rw [length_drop, length_drop] at hsame
        omega
  · have hempty : (p.take limit).drop start = [] := drop_eq_nil_of_le ((length_take_le ..).trans hfull)
    rw [hempty, length_nil, Nat.le_zero] at hn
    simp [hempty, hn, Freestanding.accumulate]

theorem accumulate_bounds (base : ℕ) (rest : Text) {acc : ℕ} (overflow : Bool) (hacc : acc < 2 ^ 64) :
    (Freestanding.accumulate base rest acc overflow).1 < 2 ^ 64 ∧
      (Freestanding.accumulate base rest acc overflow).2.2 <:+ rest := by
  induction rest generalizing acc overflow with
  | nil => exact ⟨hacc, suffix_rfl⟩
  | cons c rest ih =>
    rw [Freestanding.accumulate]
    split_ifs
    · exact ⟨hacc, suffix_rfl⟩
    · exact (ih true hacc).imp_right fun hstop ↦ hstop.trans (suffix_cons ..)
    · exact (ih overflow (Nat.mod_lt _ (by decide))).imp_right fun hstop ↦ hstop.trans (suffix_cons ..)

theorem baseOf_suffix (base : ℕ) (c23 : Bool) (p : Text) : (baseOf base c23 p).2 <:+ p := by
  unfold baseOf
  split_ifs
  · exact drop_suffix ..
  · exact drop_suffix ..
  · exact suffix_rfl

/-- strtoll or strtoull, in either mode. -/
def strto (isSigned : Bool) (s : Text) (base : ℕ) (c23 : Bool) : Parsed :=
  if isSigned then signedResult s base c23 else unsignedResult s base c23

theorem toSigned_emod {n : ℕ} (h : n < 2 ^ 64) : toSigned n % 2 ^ 64 = n := by
  unfold toSigned
  split_ifs <;> omega

theorem strto_eq {x : Scan} (isSigned : Bool) (h : scan p base c23 = some x) (hacc : x.acc < 2 ^ 64) :
    (strto isSigned p base c23).stop = some x.stop ∧
      (strto isSigned p base c23).value % 2 ^ 64 = result isSigned x.negative x.overflow x.acc := by
  obtain ⟨acc, negative, overflow, stop⟩ := x
  simp only at hacc
  cases isSigned with
  | true =>
    simp only [strto, signedResult, h, result, if_true]
    split_ifs
    · exact ⟨rfl, rfl⟩
    · exact ⟨rfl, toSigned_emod (Nat.mod_lt _ (by decide))⟩
    · exact ⟨rfl, rfl⟩
    · exact ⟨rfl, toSigned_emod hacc⟩
  | false =>
    simp only [strto, unsignedResult, h, result, Bool.false_eq_true, if_false]
    split_ifs
    · exact ⟨rfl, rfl⟩
    · exact ⟨rfl, by simp only; omega⟩
    · exact ⟨rfl, by simp only; omega⟩

/-- A call with width 0 consumes what strtoll or strtoull of its mode reads and stores that value,
clamped in the same way, and consumes nothing exactly where they read nothing; a call with a width
gives what a call with width 0 gives on that many bytes. No byte behind the NUL is read. -/
theorem scanInteger_strto (hbase : base ∈ [0, 8, 10, 16]) (hlength : p.length < sizeMax)
    (hspace : ∀ c ∈ p.head?, isSpace c = false) (isSigned c23 : Bool) :
    (∃ stop, (strto isSigned p base c23).stop = some stop ∧ stop <:+ p ∧
      scanInteger p 0 base isSigned c23 = some (if stop = p then (0, none) else
        (p.length - stop.length, some ((strto isSigned p base c23).value % 2 ^ 64).toNat))) ∧
    ∀ width, 0 < width → ∃ answer, scanInteger p width base isSigned c23 = some answer ∧
      scanInteger (p.take width) 0 base isSigned c23 = some answer := by
  have hle : base ≤ 16 := by
    simp only [mem_cons, not_mem_nil, or_false] at hbase
    omega
  have hvalid : ¬(base = 1 ∨ 36 < base) := by
    simp only [mem_cons, not_mem_nil, or_false] at hbase
    omega
  have hall : ∀ {text : Text}, text.length < sizeMax →
      scanInteger text 0 base isSigned c23 = some (taken text base isSigned c23) := fun htext ↦ by
    rw [scanInteger_eq hle 0 isSigned rfl, if_neg (by simp), take_of_length_le htext.le]
  refine ⟨?_, fun width hwidth ↦ ⟨_, scanInteger_eq hle width isSigned (if_pos hwidth.ne').symm, hall ?_⟩⟩
  · obtain ⟨front, _, hfront⟩ := signOf_split p
    have hdrop : p.dropWhile isSpace = p := by
      cases p with
      | nil => rfl
      | cons c rest => exact dropWhile_cons_of_neg (by simp [hspace c rfl])
    rcases hsign : signOf p with ⟨negative, q⟩
    have hsuffix := baseOf_suffix base c23 q
    rcases hq : baseOf base c23 q with ⟨radix, digits⟩
    obtain ⟨hword, hstop⟩ := accumulate_bounds radix digits false (show 0 < 2 ^ 64 by decide)
    rcases hacc : Freestanding.accumulate radix digits 0 false with ⟨acc, overflow, stop⟩
    rw [hacc] at hword hstop
    rw [hq] at hsuffix
    have hscan : scan p base c23 =
        some (if stop = digits then ⟨0, negative, overflow, p⟩ else ⟨acc, negative, overflow, stop⟩) := by
      simp only [scan, if_neg hvalid, hdrop, hsign, hq, hacc]
    simp only [hall hlength, taken, hsign, hq, hacc]
    by_cases hnone : stop = digits
    · rw [if_pos hnone] at hscan
      exact ⟨p, (strto_eq isSigned hscan (Nat.two_pow_pos 64)).1,
        suffix_rfl, by rw [if_pos rfl, if_pos hnone]⟩
    · rw [if_neg hnone] at hscan
      obtain ⟨hend, hvalue⟩ := strto_eq isSigned hscan hword
      have hrest : digits <:+ p := hsuffix.trans ⟨front, by rw [hfront, hsign]⟩
      refine ⟨stop, hend, hstop.trans hrest, ?_⟩
      rw [if_neg hnone, if_neg, hvalue, Int.toNat_natCast]
      rintro rfl
      exact hnone (hstop.eq_of_length_le hrest.length_le)
  · rw [length_take]
    omega

/-- `-0x1f`, cut behind the `x`. -/
theorem scanInteger_strto_cut : scanInteger [45, 48, 120, 49, 102] 3 0 true false = some (2, some 0) ∧
    ∃ answer, scanInteger [45, 48, 120, 49, 102] 3 0 true false = some answer ∧
      scanInteger (take 3 [45, 48, 120, 49, 102]) 0 0 true false = some answer :=
  ⟨rfl, (scanInteger_strto (by decide) (by decide) (by rintro _ ⟨⟩; rfl) true false).2 3 (by decide)⟩

end DotnetPal.Freestanding.Sscanf
