import DotnetPal.Port
import Mathlib.Data.Nat.Bitwise

/-!
# The processors of the process

`process_affinity` of the topology front end with its limit on a bitmap, and
`SystemNative_SchedGetAffinity`, which asks it once with a buffer of fixed length and makes a machine
word of the first bytes. The front end's checks of addresses hold for the caller's locals.
-/

namespace DotnetPal.Native.Affinity

open List

/-- Most processors the boundary reports. -/
def maxCpus : ℕ := 65535

/-- Length of the consumer's buffer. -/
def room : ℕ := 512

/-- Processor `n` is in the set the bitmap stands for. -/
def Holds (bitmap : List UInt8) (n : ℕ) : Prop := (bitmap.getD (n / 8) 0).toNat.testBit (n % 8) = true

/-- What the provider leaves in a buffer of zeros: as much of its bitmap as fits. -/
def written (bitmap : List UInt8) (capacity : ℕ) : List UInt8 :=
  bitmap.take capacity ++ replicate (capacity - bitmap.length) 0

/-- The statuses the group passes on; any other is an error of the system. -/
def record : Error → Error
  | .unsupported => .unsupported
  | .invalidArgument => .invalidArgument
  | .bufferTooSmall => .bufferTooSmall
  | _ => .os

/-- Status, bytes needed and buffer. -/
structure Reply where
  status : Except Error Unit
  needed : ℕ
  mask : List UInt8

/-- The front end over a provider that answers with its whole bitmap's length. -/
def processAffinity (provider : Except Error (List UInt8)) (capacity : ℕ) : Reply :=
  match provider with
  | .ok bitmap =>
    if bitmap.length = 0 ∨ (maxCpus + 7) / 8 < bitmap.length then
      ⟨.error (record .os), 0, replicate capacity 0⟩
    else if capacity < bitmap.length then
      ⟨.error (record .bufferTooSmall), bitmap.length, replicate capacity 0⟩
    else ⟨.ok (), bitmap.length, written bitmap capacity⟩
  | .error error => ⟨.error (record error), 0, replicate capacity 0⟩

/-- The bitmaps the front end hands on, given the room. -/
def Accepted (bitmap : List UInt8) : Prop :=
  ∃ capacity, (processAffinity (.ok bitmap) capacity).status = .ok ()

/-- The groups the consumer finds: the answer of `process_id` and the topology provider. -/
structure Host where
  identity : Option (Except Error ℕ)
  topology : Option (Except Error (List UInt8))

inductive Failure
  | efault
  | number (errno : Errno)

/-- `pid` as the unsigned number `process_id` is compared with. -/
def unsigned (pid : ℤ) : ℕ := (pid % 0x10000000000000000).toNat

def Host.isSelf (host : Host) (pid : ℤ) : Bool :=
  pid == 0 || match host.identity with
    | some (.ok id) => id == unsigned pid
    | _ => false

/-- The loop over the bytes of a word. -/
def wordOf (bits : List UInt8) (width : ℕ) : ℕ :=
  (range width).foldl (fun word i ↦ word ||| (bits.getD i 0).toNat <<< (8 * i)) 0

/-- A machine word has `width` bytes. A failure leaves zero in a mask that is given. -/
def schedGetAffinity (host : Host) (width : ℕ) (pid : ℤ) (mask : Bool) : Except Failure ℕ :=
  if mask = false then .error .efault
  else if host.isSelf pid = false then .error (.number .esrch)
  else
    match host.topology with
    | none => .error (.number .enotsup)
    | some provider =>
      let reply := processAffinity provider room
      match reply.status with
      | .error error => .error (.number (snErrno error))
      | .ok () => .ok (wordOf reply.mask width)

theorem getD_written (b : List UInt8) {cap : ℕ} (h : b.length ≤ cap) (i : ℕ) :
    (written b cap).getD i 0 = b.getD i 0 := by
  unfold written
  rw [take_of_length_le h]
  by_cases hi : i < b.length
  · rw [getD_append _ _ _ _ hi]
  · rw [getD_append_right _ _ _ _ (by omega), getD_eq_default _ _ (by omega : b.length ≤ i)]
    simp only [getD, getElem?_replicate]
    split_ifs <;> rfl

/-- The word's bits are those of the bytes it was made of. -/
theorem testBit_wordOf (bits : List UInt8) (width n : ℕ) :
    (wordOf bits width).testBit n =
      (decide (n < 8 * width) && (bits.getD (n / 8) 0).toNat.testBit (n % 8)) := by
  induction width with
  | zero => simp [wordOf]
  | succ width ih =>
    have hstep : wordOf bits (width + 1) = wordOf bits width ||| (bits.getD width 0).toNat <<<
      (8 * width) := by
      simp only [wordOf, range_succ, foldl_append, foldl_cons, foldl_nil]
    rw [hstep, Nat.testBit_or, ih, Nat.testBit_shiftLeft]
    rcases lt_or_ge n (8 * width) with hlow | hhigh
    · simp [hlow, show n < 8 * (width + 1) by omega, show ¬ 8 * width ≤ n by omega]
    · rcases lt_or_ge n (8 * (width + 1)) with hn | hn
      · have hdiv : n / 8 = width := by omega
        simp [hdiv, hn, show ¬ n < 8 * width by omega, hhigh, show n - 8 * width = n % 8 by omega]
      · have hbyte : (bits.getD width 0).toNat < 2 ^ (n - 8 * width) :=
          lt_of_lt_of_le (UInt8.toNat_lt _)
            (Nat.pow_le_pow_right (by decide) (by omega : 8 ≤ n - 8 * width))
        simp only [Nat.testBit_lt_two_pow hbyte, show ¬ n <
          8 * width by omega, show ¬ n < 8 * (width + 1) by omega,
          decide_false, Bool.false_and, Bool.and_false, Bool.or_false]

theorem accepted_iff {b : List UInt8} :
    Accepted b ↔ ¬ (b.length = 0 ∨ (maxCpus + 7) / 8 < b.length) := by
  constructor
  · rintro ⟨cap, h⟩ hlimit
    simp only [processAffinity, if_pos hlimit] at h
    cases h
  · intro h
    exact ⟨b.length, by simp only [processAffinity, if_neg h, lt_irrefl, if_false]⟩

/-- One question to the front end decides the call. -/
theorem schedGetAffinity_of_accepted {b : List UInt8} (haccepted : Accepted b) {host : Host}
    (htopology : host.topology = some (.ok b)) {pid : ℤ} (hself : host.isSelf pid = true) (width : ℕ) :
    schedGetAffinity host width pid true =
      if room < b.length then .error (.number .erange) else .ok (wordOf (written b room) width) := by
  simp only [schedGetAffinity, Bool.true_eq_false, if_false, hself, htopology, processAffinity,
    if_neg (accepted_iff.1 haccepted)]
  split_ifs <;> rfl

/-- The consumer serves the machines whose bitmap fits its buffer, a sixteenth of what the front end
accepts. -/
theorem schedGetAffinity_iff {b : List UInt8} (haccepted : Accepted b) {host : Host}
    (htopology : host.topology = some (.ok b)) {pid : ℤ} (hself : host.isSelf pid = true) (width : ℕ) :
    (∃ word, schedGetAffinity host width pid true = .ok word ∧
      ∀ n < 8 * width, (word.testBit n = true ↔ Holds b n)) ↔ b.length ≤ room := by
  rw [schedGetAffinity_of_accepted haccepted htopology hself]
  by_cases hfits : b.length ≤ room
  · rw [if_neg hfits.not_gt]
    refine ⟨fun _ ↦ hfits, fun _ ↦ ⟨_, rfl, fun n hn ↦ ?_⟩⟩
    rw [testBit_wordOf, getD_written b hfits, decide_eq_true hn, Bool.true_and, Holds]
  · rw [if_pos (not_le.1 hfits)]
    refine ⟨fun ⟨word, h, _⟩ ↦ ?_, fun h ↦ absurd h hfits⟩
    cases h

theorem schedGetAffinity_iff_one :
    ∃ word, schedGetAffinity ⟨none, some (.ok [5])⟩ 8 0 true = .ok word ∧
      ∀ n < 64, (word.testBit n = true ↔ Holds [5] n) :=
  (schedGetAffinity_iff (accepted_iff.2 (by decide)) rfl rfl 8).2 (by decide)

/-- The front end accepts the bitmap of a machine with 4104 processors, and the call fails there. -/
theorem schedGetAffinity_long :
    Accepted (replicate 513 1) ∧
      schedGetAffinity ⟨none, some (.ok (replicate 513 1))⟩ 8 0 true = .error (.number .erange) := by
  have haccepted : Accepted (replicate 513 1) := by
    rw [accepted_iff, length_replicate]
    decide
  refine ⟨haccepted, ?_⟩
  rw [schedGetAffinity_of_accepted haccepted rfl rfl, length_replicate]
  rfl

end DotnetPal.Native.Affinity
