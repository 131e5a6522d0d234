import DotnetPal.Foundations.Extents
import Mathlib.Algebra.Order.Ring.Nat

/-!
# Transfers of files

`vectored` and `SystemNative_CopyFile` of `system_native_io.c`. A provider moves as many bytes of a
part as it likes, or fails and moves none; what it answers to the calls is an argument. The position
behind a transfer fits 64 bits.
-/

open List

namespace DotnetPal.Native.Transfers

open Extents

abbrev Bytes := List UInt8

def int32Max : ℕ := 0x7fffffff

/-- A pinned object of the kind file, and what its file holds. -/
structure FileObject where
  bytes : Bytes
  position : ℕ
  readable : Bool
  writable : Bool
  sync : Bool

/-- How many bytes a call may move, if it does not fail, and whether a flush behind it succeeds. -/
structure Answer where
  done : Option ℕ
  flushed : Bool

/-- Writing nothing does not make a file longer. -/
def put (file : Bytes) (off : ℕ) (data : Bytes) : Bytes :=
  if data = [] then file else overwrite 0 file off data

def fileRead (object : FileObject) (size off : ℕ) (answer : Answer) : Option Bytes :=
  if object.readable then answer.done.map fun count ↦ ((object.bytes.drop off).take size).take count else none

def fileWrite (object : FileObject) (data : Bytes) (off : ℕ) (answer : Answer) : Option ℕ × FileObject :=
  if object.writable then
    match answer.done with
    | none => (none, object)
    | some count =>
      (if object.sync ∧ ¬answer.flushed then none else some (min count data.length),
        { object with bytes := put object.bytes off (data.take count) })
  else (none, object)

@[simp]
theorem put_nil (file : Bytes) (off : ℕ) : put file off [] = file := rfl

theorem put_append (file : Bytes) (off : ℕ) (a b : Bytes) :
    put (put file off a) (off + a.length) b = put file off (a ++ b) := by
  by_cases ha : a = []
  · simp [ha]
  by_cases hb : b = []
  · simp [hb]
  · rw [put, put, put, if_neg ha, if_neg hb, if_neg (by simp [ha]), overwrite_append]

/-! ## Vectored transfers -/

inductive Status
  | ok
  | unsupported
  | accessDenied
  | other
  deriving DecidableEq

/-- How a transfer came to its end. -/
inductive Ending
  | complete
  | short
  | failed
  deriving DecidableEq

/-- A transfer under way, with what each call asked for and what it moved. -/
structure Vectored where
  object : FileObject
  total : ℕ
  calls : List (ℕ × Option ℕ)

variable (write : Bool) (ans : ℕ → Answer) (off : ℕ)

/-- What a call moves: bytes of its part, or bytes of the file. -/
def move (part : Bytes) (v : Vectored) : Option Bytes × FileObject :=
  if write then
    let (done, object) := fileWrite v.object part (off + v.total) (ans v.calls.length)
    (done.map part.take, object)
  else (fileRead v.object part.length (off + v.total) (ans v.calls.length), v.object)

def transfer (part : Bytes) (v : Vectored) : Option Bytes × Vectored :=
  let (moved, object) := move write ans off part v
  (moved, ⟨object, v.total + (moved.getD []).length, v.calls ++ [(part.length, moved.map length)]⟩)

/-- The loop over what is left of a vector, in parts of at most 2 GiB. -/
def whileLeft (left : Bytes) (v : Vectored) : Bytes × Vectored × Ending :=
  if left = [] then ([], v, .complete)
  else match transfer write ans off (left.take int32Max) v with
    | (none, v) => (left, v, .failed)
    | (some moved, v) =>
      if moved.length < (left.take int32Max).length then (moved ++ left.drop moved.length, v, .short)
      else
        let (rest, v, ending) := whileLeft (left.drop int32Max) v
        (moved ++ rest, v, ending)
termination_by left.length
decreasing_by
  have hpos := length_pos_iff.mpr ‹¬left = []›
  rw [length_drop]
  exact Nat.sub_lt hpos (by decide)

/-- The loop over the vectors. -/
def overVectors : List Bytes → Vectored → List Bytes × Vectored × Ending
  | [], v => ([], v, .complete)
  | vector :: rest, v =>
    match whileLeft write ans off vector v with
    | (vector, v, .complete) =>
      let (rest, v, ending) := overVectors rest v
      (vector :: rest, v, ending)
    | (vector, v, ending) => (vector :: rest, v, ending)

/-- `vectored`, with the result of the call; none is -1. -/
def vectored (object : FileObject) (vectors : List Bytes) : Option ℕ × List Bytes × Vectored :=
  let (vectors, v, ending) := overVectors write ans off vectors ⟨object, 0, []⟩
  (if ending = .failed ∧ v.total = 0 then none else some v.total, vectors, v)

variable {write ans off} {o : FileObject} {v v' v'' : Vectored} {before after rest rest' : Bytes} {n m : ℕ}

/-- The lengths of the parts of a vector. -/
def parts (length : ℕ) : List ℕ := if length = 0 then [] else min int32Max length :: parts (length - int32Max)
decreasing_by exact Nat.sub_lt (Nat.pos_of_ne_zero ‹_›) (by decide)

def pieces (vectors : List Bytes) : List ℕ := vectors.flatMap fun vector ↦ parts vector.length

/-- What a call moves that asks for `part` bytes from a place on: as much as the provider lets it,
of the part and of what the file has there to read. -/
def answered (write : Bool) (ans : ℕ → Answer) (object : FileObject) (call place part : ℕ) : Option ℕ :=
  (ans call).done.map fun count ↦ min count (if write then part else min part (object.bytes.length - place))

/-- The calls of a transfer of these parts that moved `n` bytes, from the first one's number and
place on: every one but the last is complete. -/
inductive Trace (answer : ℕ → ℕ → ℕ → Option ℕ) : ℕ → ℕ → List ℕ → List (ℕ × Option ℕ) → Ending → ℕ → Prop
  | complete {call place : ℕ} : Trace answer call place [] [] .complete 0
  | full {call place part n : ℕ} {parts : List ℕ} {calls : List (ℕ × Option ℕ)} {ending : Ending} : 0 < part →
      answer call place part = some part → Trace answer (call + 1) (place + part) parts calls ending n →
      Trace answer call place (part :: parts) ((part, some part) :: calls) ending (part + n)
  | short {call place part done : ℕ} {parts : List ℕ} : answer call place part = some done → done < part →
      Trace answer call place (part :: parts) [(part, some done)] .short done
  | failed {call place part : ℕ} {parts : List ℕ} : answer call place part = none →
      Trace answer call place (part :: parts) [(part, none)] .failed 0

variable {answer : ℕ → ℕ → ℕ → Option ℕ} {call place : ℕ} {lengths lengths' : List ℕ}
  {calls : List (ℕ × Option ℕ)} {ending : Ending}

theorem Trace.append {later : List (ℕ × Option ℕ)} (h : Trace answer call place lengths calls .complete n)
    (hlater : Trace answer (call + calls.length) (place + n) lengths' later ending m) :
    Trace answer call place (lengths ++ lengths') (calls ++ later) ending (n + m) := by
  generalize hending : Ending.complete = a at h
  induction h with
  | complete => rwa [Nat.zero_add]
  | @full call _ _ _ _ calls _ hpart hanswer _ ih =>
    rw [Nat.add_assoc]
    refine .full hpart hanswer (ih ?_ hending)
    rwa [Nat.add_assoc call, Nat.add_comm 1, Nat.add_assoc]
  | short | failed => cases hending

/-- A transfer that ends early never came to the parts behind it. -/
theorem Trace.extend (h : Trace answer call place lengths calls ending n) (hending : ending ≠ .complete) :
    Trace answer call place (lengths ++ lengths') calls ending n := by
  induction h with
  | complete => exact absurd rfl hending
  | full hpart hanswer _ ih => exact .full hpart hanswer (ih hending)
  | short hanswer hlt => exact .short hanswer hlt
  | failed hanswer => exact .failed hanswer

theorem Trace.of_mem_dropLast (h : Trace answer call place lengths calls ending n) :
    ∀ call ∈ calls.dropLast, call.2 = some call.1 := by
  induction h with
  | complete | short | failed => simp
  | @full _ _ part n _ calls ending _ _ h ih =>
    cases calls with
    | nil => simp
    | cons call calls => simpa using ih

/-- A transfer fails without a byte exactly where its first call does. -/
theorem Trace.failed_iff (h : Trace answer call place lengths calls ending n) :
    ending = .failed ∧ n = 0 ↔ calls.head?.map Prod.snd = some none := by
  cases h with
  | full hpart => simp; omega
  | complete | short | failed => simp

theorem Trace.complete_of_all (h : Trace answer call place lengths calls ending n)
    (hall : ∀ call ∈ calls, call.2 = some call.1) : ending = .complete := by
  induction h with
  | complete => rfl
  | full _ _ _ ih => exact ih fun call hcall ↦ hall call (mem_cons_of_mem _ hcall)
  | short _ hlt => exact absurd (Option.some.inj (hall _ mem_cons_self)) (Nat.ne_of_lt hlt)
  | failed => cases hall _ mem_cons_self

theorem Trace.total (h : Trace answer call place lengths calls ending n) :
    n = (calls.map fun call ↦ call.2.getD 0).sum := by
  induction h with
  | complete | short | failed => simp
  | full _ _ _ ih => simpa using ih

/-- Each call asks for the next part, behind what the earlier ones asked for. -/
theorem Trace.asked (h : Trace answer call place lengths calls ending n) {i part : ℕ} {done : Option ℕ}
    (hcall : calls[i]? = some (part, done)) :
    lengths[i]? = some part ∧ done = answer (call + i) (place + (lengths.take i).sum) part := by
  induction h generalizing i with
  | complete => simp at hcall
  | @full call place part _ _ _ _ _ hanswer _ ih =>
    cases i with
    | zero => cases hcall; exact ⟨rfl, hanswer.symm⟩
    | succ i =>
      obtain ⟨hpart, hdone⟩ := ih hcall
      refine ⟨hpart, hdone.trans ?_⟩
      rw [take_succ_cons, sum_cons, Nat.add_assoc call, Nat.add_comm 1, Nat.add_assoc place]
  | short hanswer | failed hanswer =>
    cases i with
    | zero => cases hcall; exact ⟨rfl, hanswer.symm⟩
    | succ => cases hcall

/-- The descriptor is open for the transfer, and nothing is flushed behind it. -/
def Open (write : Bool) (object : FileObject) : Prop :=
  if write then object.writable ∧ object.sync = false else object.readable

/-- A transfer that moved the bytes `moved` with these calls: they are the first bytes of the vector
or of the file from the position on, the vector has them in front, and nothing else changed. -/
structure Moved (write : Bool) (ans : ℕ → Answer) (off : ℕ) (lengths : List ℕ) (before after : Bytes)
    (v v' : Vectored) (ending : Ending) (moved : Bytes) : Prop where
  first : moved <+: if write then before else v.object.bytes.drop (off + v.total)
  length_le : moved.length ≤ before.length
  after_eq : after = moved ++ before.drop moved.length
  total : v'.total = v.total + moved.length
  object : v'.object = { v.object with
    bytes := if write then put v.object.bytes (off + v.total) moved else v.object.bytes }
  calls : ∃ calls, v'.calls = v.calls ++ calls ∧
    Trace (answered write ans v.object) v.calls.length (off + v.total) lengths calls ending moved.length
  complete : ending = .complete → moved.length = before.length

variable {ending : Ending} {moved moved' : Bytes}

theorem Moved.nil : Moved write ans off [] [] [] v v .complete [] :=
  ⟨List.nil_prefix, Nat.zero_le _, rfl,
    rfl, by rw [put_nil, ite_self], ⟨[], by simp, .complete⟩, fun _ ↦ rfl⟩

variable (h : Moved write ans off lengths before after v v' ending moved)
include h

theorem Moved.length_eq : after.length = before.length := by
  have hle := h.length_le
  rw [h.after_eq, length_append, length_drop]
  omega

theorem Moved.open (hopen : Open write v.object) : Open write v'.object := by
  rw [h.object]
  exact hopen

omit h in
/-- A transfer that goes on where a complete one ended. -/
theorem Moved.append (h : Moved write ans off lengths before after v v' .complete moved)
    (hrest : Moved write ans off lengths' rest rest' v' v'' ending moved') :
    Moved write ans off (lengths ++ lengths') (before ++ rest)
    (after ++ rest') v v'' ending (moved ++ moved') := by
  have hlen := h.complete rfl
  have htotal : off + v'.total = off + v.total + moved.length := by rw [h.total, Nat.add_assoc]
  obtain ⟨calls, hcalls, htrace⟩ := h.calls
  obtain ⟨later, hlater, hlast⟩ := hrest.calls
  have ha := h.first
  have hnext := hrest.first
  have hle := hrest.length_le
  rw [h.object, htotal] at hnext
  refine ⟨?_, by simp [hlen, hle], ?_, by simp [hrest.total, h.total, Nat.add_assoc], ?_,
    ⟨calls ++ later, ?_, ?_⟩, ?_⟩
  · cases write with
    | true =>
      obtain rfl := List.IsPrefix.eq_of_length ha hlen
      exact (prefix_append_right_inj _).mpr hnext
    | false =>
      obtain ⟨tail, htail⟩ := ha
      have hdrop : v.object.bytes.drop (off + v.total + moved.length) = tail := by
        rw [← drop_drop]
        simp only [Bool.false_eq_true, if_false] at htail
        rw [← htail, drop_left]
      simp only [Bool.false_eq_true, if_false] at htail hnext ⊢
      rw [← htail, prefix_append_right_inj, ← hdrop]
      exact hnext
  · rw [h.after_eq, hrest.after_eq, hlen, drop_length, length_append, hlen]
    simp [drop_append]
  · rw [hrest.object, h.object, htotal]
    cases write with
    | true => simp [put_append]
    | false => rfl
  · rw [hlater, hcalls, append_assoc]
  · have hsame : answered write ans v'.object = answered write ans v.object := by
      rw [h.object]
      cases write <;> rfl
    rw [hsame, hcalls, length_append, htotal] at hlast
    rw [length_append]
    exact htrace.append hlast
  · intro hending
    rw [length_append, length_append, hlen, hrest.complete hending]

/-- A transfer that ends early leaves what is behind it. -/
theorem Moved.extend (hending : ending ≠ .complete) (rest : Bytes) (lengths' : List ℕ) :
    Moved write ans off (lengths ++ lengths') (before ++ rest) (after ++ rest) v v' ending moved := by
  have hle := h.length_le
  obtain ⟨calls, hcalls, htrace⟩ := h.calls
  refine { h with
    first := ?_
    length_le := by rw [length_append]; omega
    after_eq := by rw [h.after_eq, append_assoc, drop_append_of_le_length hle]
    calls := ⟨calls, hcalls, htrace.extend hending⟩
    complete := fun hcomplete ↦ absurd hcomplete hending }
  have hfirst := h.first
  cases write with
  | true => exact List.IsPrefix.trans hfirst (prefix_append ..)
  | false => exact hfirst

omit h

theorem move_cases (ans : ℕ → Answer) (off : ℕ) (hopen : Open write v.object) (part : Bytes) :
    move write ans off part v = (none, v.object) ∨
    ∃ moved : Bytes, (moved <+: if write then part else v.object.bytes.drop (off + v.total)) ∧
      moved.length ≤ part.length ∧ move write ans off part v = (some moved, { v.object with
        bytes := if write then put v.object.bytes (off + v.total) moved else v.object.bytes }) := by
  cases hdone : (ans v.calls.length).done with
  | none =>
    cases write with
    | true => exact .inl (by simp [move, fileWrite, hdone, hopen.1])
    | false => exact .inl (by simp [move, fileRead, hdone, show v.object.readable = true from hopen])
  | some count =>
    cases write with
    | true =>
      have hprefix := List.take_prefix count part
      exact .inr ⟨_, hprefix, hprefix.length_le, by simp [move, fileWrite, hdone, hopen.1, hopen.2]⟩
    | false =>
      have hprefix := List.take_prefix count ((v.object.bytes.drop (off + v.total)).take part.length)
      exact .inr
        ⟨_, hprefix.trans (List.take_prefix ..), Nat.le_trans hprefix.length_le (length_take_le ..),
        by
          rw [move, fileRead, hdone, if_neg Bool.false_ne_true,
            if_pos (show v.object.readable = true from hopen)]
          rfl⟩

theorem answered_length (ans : ℕ → Answer) (off : ℕ) (hopen : Open write v.object) (part : Bytes) :
    answered write ans v.object v.calls.length (off + v.total) part.length =
      (move write ans off part v).1.map length := by
  cases hdone : (ans v.calls.length).done <;> cases write <;>
    simp_all [answered, move, fileRead, fileWrite, Open]

/-- One call is the whole of a transfer where it is short or fails. -/
theorem transfer_cases (ans : ℕ → Answer) (off : ℕ) (hopen : Open write v.object) {part : Bytes}
    (hpart : part ≠ []) :
    (∃ v', transfer write ans off part v = (none, v') ∧
      Moved write ans off [part.length] part part v v' .failed []) ∨
    ∃ moved v', transfer write ans off part v = (some moved, v') ∧
      Moved write ans off [part.length] part (moved ++ part.drop moved.length) v v'
        (if moved.length < part.length then .short else .complete) moved := by
  have hanswer := answered_length ans off hopen part
  rcases move_cases ans off hopen part with hmove | ⟨moved, hprefix, hle, hmove⟩
  · rw [hmove] at hanswer
    refine .inl
      ⟨⟨v.object, v.total, v.calls ++ [(part.length, none)]⟩, by rw [transfer, hmove]; rfl, List.nil_prefix,
      Nat.zero_le _, rfl, rfl, ?_, ⟨_, rfl, .failed hanswer⟩, fun h ↦ by cases h⟩
    rw [put_nil, ite_self]
  · rw [hmove, Option.map_some] at hanswer
    refine .inr
      ⟨moved, _, by rw [transfer, hmove], hprefix, hle, rfl, rfl, rfl, ⟨_, rfl, ?_⟩, fun hending ↦ ?_⟩
    · change Trace _ _ _ _ [(part.length, some moved.length)] _ _
      split_ifs with hshort
      · exact .short hanswer hshort
      · rw [show moved.length = part.length by omega] at hanswer ⊢
        exact .full (length_pos_iff.mpr hpart) hanswer .complete
    · split_ifs at hending
      omega

theorem whileLeft_moved (ans : ℕ → Answer) (off : ℕ) (hopen : Open write v.object) (left : Bytes) :
    ∃ moved, Moved write ans off (parts left.length) left (whileLeft write ans off left v).1 v
      (whileLeft write ans off left v).2.1 (whileLeft write ans off left v).2.2 moved := by
  induction hlen : left.length using Nat.strongRecOn generalizing left v with
  | ind length ih =>
    subst hlen
    rw [whileLeft]
    by_cases hleft : left = []
    · rw [if_pos hleft, hleft, parts]
      exact ⟨[], .nil⟩
    have hpart : left.take int32Max ≠ [] := by simp [hleft, int32Max]
    have hsplit := take_append_drop int32Max left
    have hparts : parts left.length = [(left.take int32Max).length] ++
      parts (left.drop int32Max).length := by
      rw [parts, if_neg (by simp [hleft]), length_take, length_drop]
      rfl
    rw [if_neg hleft, hparts]
    rcases transfer_cases ans off hopen hpart with ⟨v', htransfer, hmoved⟩ | ⟨moved, v', htransfer, hmoved⟩
    · have hfailed := hmoved.extend (by decide) (left.drop int32Max) (parts (left.drop int32Max).length)
      rw [hsplit] at hfailed
      simp only [htransfer]
      exact ⟨[], hfailed⟩
    simp only [htransfer]
    by_cases hshort : moved.length < (left.take int32Max).length
    · rw [if_pos hshort] at hmoved ⊢
      have hended := hmoved.extend (by decide) (left.drop int32Max) (parts (left.drop int32Max).length)
      rw [append_assoc, ← drop_append_of_le_length hmoved.length_le, hsplit] at hended
      exact ⟨moved, hended⟩
    · rw [if_neg hshort] at hmoved ⊢
      have hless : (left.drop int32Max).length < left.length := by
        rw [length_drop]
        exact Nat.sub_lt (length_pos_iff.mpr hleft) (by decide)
      obtain ⟨later, hlater⟩ := ih _ hless (hmoved.open hopen) (left.drop int32Max) rfl
      have hall := hmoved.append hlater
      rw [hsplit, hmoved.complete rfl, drop_length, append_nil] at hall
      exact ⟨_, hall⟩

theorem overVectors_moved (ans : ℕ → Answer) (off : ℕ) (vectors : List Bytes)
    (hopen : Open write v.object) :
    ∃ moved, Moved write ans off (pieces vectors) vectors.flatten
        (overVectors write ans off vectors v).1.flatten v (overVectors write ans off vectors v).2.1
        (overVectors write ans off vectors v).2.2 moved ∧
      (overVectors write ans off vectors v).1.map length = vectors.map length := by
  induction vectors generalizing v with
  | nil => exact ⟨[], .nil, rfl⟩
  | cons vector rest ih =>
    obtain ⟨moved, hmoved⟩ := whileLeft_moved ans off hopen vector
    rcases hloop : whileLeft write ans off vector v with ⟨after, v', ending⟩
    rw [hloop] at hmoved
    have hlen : after.length = vector.length := hmoved.length_eq
    cases ending with
    | complete =>
      obtain ⟨later, hlater, hlengths⟩ := ih (hmoved.open hopen)
      simp only [overVectors, hloop]
      exact ⟨_, hmoved.append hlater, by simp [hlen, hlengths]⟩
    | short | failed =>
      simp only [overVectors, hloop]
      exact ⟨_, hmoved.extend (by simp) rest.flatten _, by simp [hlen]⟩

/-- PReadV and PWriteV: the first bytes of the vectors, taken together, and as many bytes of the
file from the offset on are what is moved; no other byte and not the cursor changes. The calls ask
for the parts of the vectors one after another, each behind the ones before it, and move what the result counts. The result is -1 exactly if the
first call failed, the whole length if every call was complete, and every call but the last one
was. -/
theorem vectored_exact (write : Bool) (ans : ℕ → Answer) (off : ℕ) (vectors : List Bytes)
    (hopen : Open write o) {result : Option ℕ} {vectors' : List Bytes}
    (h : vectored write ans off o vectors = (result, vectors', v)) :
    (write = true → vectors' = vectors ∧
      v.object = { o with bytes := put o.bytes off (vectors.flatten.take v.total) }) ∧
    (write = false → v.object = o ∧ vectors'.map length = vectors.map length ∧
      vectors'.flatten = (o.bytes.drop off).take v.total ++ vectors.flatten.drop v.total) ∧
    (result = none ↔ v.calls.head?.map Prod.snd = some none) ∧
    (∀ count, result = some count → count = v.total) ∧
    v.total = (v.calls.map fun call ↦ call.2.getD 0).sum ∧
    v.total ≤ vectors.flatten.length ∧ (∀ call ∈ v.calls.dropLast, call.2 = some call.1) ∧
    ((∀ call ∈ v.calls, call.2 = some call.1) → v.total = vectors.flatten.length) ∧
    ∀ (i part : ℕ) (done : Option ℕ), v.calls[i]? = some (part, done) → (pieces vectors)[i]? = some part ∧
      done = answered write ans o i (off + ((pieces vectors).take i).sum) part := by
  obtain ⟨moved, hmoved, hlengths⟩ := overVectors_moved (v := ⟨o, 0, []⟩) ans off vectors hopen
  rcases hover : overVectors write ans off vectors ⟨o, 0, []⟩ with ⟨after, v', ending⟩
  rw [vectored, hover] at h
  rw [hover] at hmoved hlengths
  obtain ⟨rfl, rfl, rfl⟩ : _ ∧ _ ∧ _ := by simpa using h
  obtain ⟨calls, hcalls, htrace⟩ := hmoved.calls
  have htotal : v'.total = moved.length := by simpa using hmoved.total
  rw [← htotal] at htrace
  rw [nil_append] at hcalls
  have hfirst := hmoved.first
  refine ⟨?_, ?_, ?_, ?_, hcalls ▸ htrace.total, htotal ▸ hmoved.length_le,
    hcalls ▸ htrace.of_mem_dropLast, fun hall ↦ ?_, fun i part done hcall ↦ ?_⟩
  · rintro rfl
    have hprefix : vectors.flatten.take v'.total = moved := htotal ▸ (prefix_iff_eq_take.mp hfirst).symm
    have hsame : after.flatten = vectors.flatten := by
      rw [hmoved.after_eq, ← htotal, ← hprefix, take_append_drop]
    exact ⟨eq_iff_flatten_eq.mpr ⟨hsame, hlengths⟩, by rw [hmoved.object, hprefix]; simp⟩
  · rintro rfl
    have hprefix : (o.bytes.drop off).take v'.total = moved := htotal ▸ (prefix_iff_eq_take.mp hfirst).symm
    exact ⟨hmoved.object, hlengths, by rw [hmoved.after_eq, hprefix, htotal]⟩
  · rw [hcalls, ← htrace.failed_iff]
    split_ifs with hfailed <;> simp [hfailed]
  · intro count hcount
    split_ifs at hcount
    exact (Option.some.inj hcount).symm
  · rw [htotal]
    exact hmoved.complete (htrace.complete_of_all (hcalls ▸ hall))
  · have hasked := htrace.asked (hcalls ▸ hcall)
    rwa [length_nil, Nat.zero_add, Nat.add_zero] at hasked

/-- A file that is read in parts of two bytes at most. -/
def readByTwo : Option ℕ × List Bytes × Vectored :=
  vectored false (fun _ ↦ ⟨some 2, true⟩) 1 ⟨[1, 2, 3, 4, 5], 0, true, false, false⟩ [[9, 9], [9, 9, 9]]

theorem vectored_exact_readByTwo : readByTwo.2.2.calls = [(2, some 2), (3, some 2)] ∧
    readByTwo.2.1.flatten = [2, 3, 4, 5].take readByTwo.2.2.total ++
      [9, 9, 9, 9, 9].drop readByTwo.2.2.total := by
  have hopen : Open false ⟨[1, 2, 3, 4, 5], 0, true, false, false⟩ := rfl
  exact ⟨by decide +kernel, ((vectored_exact false _ 1 [[9, 9], [9, 9, 9]] hopen rfl).2.1 rfl).2.2⟩

/-! ## Copies of files -/

/-- What a copy finds besides the files: whether each descriptor is one of a file, whether there is
memory for the buffer, the mode the source answers, and what the operations on the metadata answer,
if the provider has them. -/
structure Setting where
  source : Bool
  destination : Bool
  memory : Bool
  mode : Option ℕ
  setTimes : Option Status
  setMode : Option (ℕ → Status)

/-- Pins of the two objects and buffers in use. -/
structure Holdings where
  source : ℕ
  destination : ℕ
  buffers : ℕ
  deriving DecidableEq

def Status.tolerated (status : Status) : Bool := status matches .ok | .unsupported | .accessDenied

def copyMetadata (setting : Setting) : Bool :=
  match setting.mode with
  | none => true
  | some mode =>
    let changed := setting.setTimes.getD .unsupported
    let changed := if changed.tolerated then
      if mode ≠ 0 then (setting.setMode.map (· (mode % 512))).getD .unsupported else .unsupported
      else changed
    changed.tolerated

def advance (object : FileObject) (count : ℕ) : FileObject :=
  { object with position := object.position + count }

variable (reads writes : ℕ → Answer)

/-- The loop over a chunk; the provider's calls are counted. -/
def writeAll (chunk : Bytes) (target : FileObject) (calls : ℕ) : Bool × FileObject × ℕ :=
  if chunk = [] then (true, target, calls)
  else match fileWrite target chunk target.position (writes calls) with
    | (some (count + 1), target) =>
      writeAll (chunk.drop (count + 1)) (advance target (count + 1)) (calls + 1)
    | (_, target) => (false, target, calls + 1)
termination_by chunk.length
decreasing_by
  rw [length_drop]
  exact Nat.sub_lt (length_pos_iff.mpr ‹_›) (Nat.succ_pos _)

def chunkSize : ℕ := 64 * 1024

theorem fileRead_front {size : ℕ} {answer : Answer} {got : Bytes}
    (h : fileRead o size off answer = some got) :
    got <+: o.bytes.drop off := by
  obtain ⟨-, count, -, rfl⟩ : o.readable ∧ ∃ count, answer.done = some count ∧ _ = got := by
    simpa [fileRead] using h
  exact (List.take_prefix ..).trans (List.take_prefix ..)

/-- The loop that reads chunk after chunk. -/
def copyLoop (source target : FileObject) (read write : ℕ) : Bool × FileObject × FileObject :=
  match _hread : fileRead source chunkSize source.position (reads read) with
  | none => (false, source, target)
  | some got =>
    if got = [] then (true, source, target)
    else match writeAll writes got target write with
      | (true, target, write) => copyLoop (advance source got.length) target (read + 1) write
      | (false, target, _) => (false, advance source got.length, target)
termination_by source.bytes.length - source.position
decreasing_by
  have hle := (fileRead_front _hread).length_le
  have hpos := length_pos_iff.mpr ‹¬got = []›
  rw [length_drop] at hle
  simp only [advance]
  omega

/-- `SystemNative_CopyFile`, with what is held when it returns. -/
def copyFile (setting : Setting) (source target : FileObject) (held : Holdings) :
    Bool × FileObject × FileObject × Holdings :=
  if ¬setting.source then (false, source, target, held)
  else
    let held := { held with source := held.source + 1 }
    if ¬setting.destination then (false, source, target, { held with source := held.source - 1 })
    else
      let held := { held with destination := held.destination + 1 }
      let (result, source, target, held) :=
        if setting.memory then
          let held := { held with buffers := held.buffers + 1 }
          let (result, source, target) := copyLoop reads writes source target 0 0
          (result, source, target, { held with buffers := held.buffers - 1 })
        else (false, source, target, held)
      (result && copyMetadata setting, source, target,
        { held with destination := held.destination - 1, source := held.source - 1 })

variable {reads writes} {src source' target target' : FileObject} {ok : Bool} {data : Bytes}
  {held' : Holdings}

/-- The object once the bytes were written at its cursor. -/
def written (object : FileObject) (data : Bytes) : FileObject :=
  { object with bytes := put object.bytes object.position data, position := object.position + data.length }

theorem written_append (o : FileObject) (a b : Bytes) :
    written (written o a) b = written o (a ++ b) := by
  simp [written, put_append, Nat.add_assoc]

/-- Some first bytes of the data were written at the cursor, all of them if it succeeded. -/
def Copied (data : Bytes) (target destination' : FileObject) (ok : Bool) : Prop :=
  (ok → destination' = written target data) ∧
    ∃ n, destination'.bytes = put target.bytes target.position (data.take n)

theorem Copied.append {a b : Bytes} (h : Copied b (written target a) target' ok) :
    Copied (a ++ b) target target' ok := by
  obtain ⟨hok, n, hn⟩ := h
  refine ⟨fun hdone ↦ by rw [hok hdone, written_append], a.length + n, ?_⟩
  rw [hn, take_length_add_append]
  exact put_append ..

theorem Copied.extend {a : Bytes} (h : Copied a target target' false) (b : Bytes) :
    Copied (a ++ b) target target' false := by
  obtain ⟨-, n, hn⟩ := h
  refine ⟨nofun, min n a.length, ?_⟩
  rw [hn, take_append_of_le_length (Nat.min_le_right ..), take_eq_take_min]

/-- A write leaves a first part of the data at the place, also where the flush behind it fails. -/
theorem fileWrite_copied (target : FileObject) (chunk : Bytes) (answer : Answer) :
    ∃ n, (fileWrite target chunk target.position answer).2 =
        { target with bytes := put target.bytes target.position (chunk.take n) } ∧
      ∀ count, (fileWrite target chunk target.position answer).1 = some count → count =
        (chunk.take n).length := by
  by_cases hwritable : target.writable
  · cases hdone : answer.done with
    | none => exact ⟨0, by simp [fileWrite, hdone], by simp [fileWrite, hdone]⟩
    | some n =>
      refine ⟨n, by simp [fileWrite, hdone, hwritable], fun count hn ↦ ?_⟩
      simp only [fileWrite, hdone, hwritable, if_true] at hn
      split_ifs at hn
      rw [length_take, ← Option.some.inj hn]
  · exact ⟨0, by rw [fileWrite, if_neg hwritable]; rfl, by simp [fileWrite, hwritable]⟩

theorem writeAll_copied (writes : ℕ → Answer) (chunk : Bytes) (target : FileObject) (calls : ℕ) :
    Copied chunk target (writeAll writes chunk target calls).2.1
      (writeAll writes chunk target calls).1 := by
  fun_induction writeAll writes chunk target calls with
  | case1 target calls => exact ⟨fun _ ↦ by simp [written], 0, rfl⟩
  | case2 chunk target calls hchunk count target' hwrite ih =>
    obtain ⟨n, hobject, hn⟩ := fileWrite_copied target chunk (writes calls)
    rw [hwrite] at hobject hn
    have hlen : count + 1 = (chunk.take n).length := hn _ rfl
    have hadvanced : advance target' (count + 1) = written target (chunk.take (count + 1)) := by
      rw [show target' = _ from hobject, hlen, ← prefix_iff_eq_take.mp (List.take_prefix n chunk)]
      rfl
    rw [hadvanced] at ih ⊢
    have happend := ih.append
    rwa [take_append_drop] at happend
  | case3 chunk target calls hchunk result target' hresult hwrite =>
    obtain ⟨n, hobject, -⟩ := fileWrite_copied target chunk (writes calls)
    rw [hwrite] at hobject
    exact ⟨nofun, n, by rw [show target' = _ from hobject]⟩

theorem copyLoop_copied (hreads : ∀ call, (reads call).done ≠ some 0) (writes : ℕ → Answer)
    (src target : FileObject) (read write : ℕ) :
    Copied (src.bytes.drop src.position) target (copyLoop reads writes src target read write).2.2
        (copyLoop reads writes src target read write).1 ∧
      (copyLoop reads writes src target read write).2.1.bytes = src.bytes ∧
      ((copyLoop reads writes src target read write).1 → (copyLoop reads writes src target read write).2.1 =
          advance src (src.bytes.drop src.position).length) := by
  fun_induction copyLoop reads writes src target read write with
  | case1 src target read write hread => exact ⟨⟨nofun, 0, rfl⟩, rfl, nofun⟩
  | case2 src target read write hread =>
    have hend : src.bytes.drop src.position = [] := by
      obtain ⟨-, count, hdone, hnil⟩ : src.readable ∧ ∃ count, (reads read).done = some count ∧ _ = [] := by
        simpa only [fileRead, Option.ite_none_right_eq_some, Option.map_eq_some_iff] using hread
      have hn : count ≠ 0 := fun hzero ↦ hreads read (hzero ▸ hdone)
      simpa [chunkSize, hn] using hnil
    rw [hend]
    exact ⟨⟨fun _ ↦ by simp [written], 0, rfl⟩, rfl, fun _ ↦ rfl⟩
  | case3 src target read write got hread hgot target' write' hwrite ih =>
    obtain ⟨rest, hrest⟩ := fileRead_front hread
    have hcopied := writeAll_copied writes got target write
    rw [hwrite] at hcopied
    have hbehind : (advance src got.length).bytes.drop (advance src got.length).position = rest := by
      simp only [advance]
      rw [← drop_drop, ← hrest, drop_left]
    obtain ⟨hlater, hsame, hsource⟩ := ih
    obtain rfl : target' = _ := hcopied.1 rfl
    rw [hbehind] at hlater hsource
    rw [← hrest]
    refine ⟨hlater.append, hsame, fun hok ↦ ?_⟩
    rw [hsource hok, advance, advance, length_append, Nat.add_assoc]
    rfl
  | case4 src target read write got hread hgot target' write' hwrite =>
    obtain ⟨rest, hrest⟩ := fileRead_front hread
    have hcopied := writeAll_copied writes got target write
    rw [hwrite] at hcopied
    rw [← hrest]
    exact ⟨hcopied.extend rest, rfl, nofun⟩

/-- A copy that succeeds has written what the source holds behind its cursor at the cursor of the
destination, and moved both; one that fails has written a first part of it there. The pins and the
buffer are given back either way. -/
theorem copyFile_exact (setting : Setting) (hreads : ∀ call, (reads call).done ≠ some 0)
    (writes : ℕ → Answer) (src target : FileObject) (held : Holdings)
    (h : copyFile reads writes setting src target held = (ok, source', target', held')) :
    held' = held ∧ source'.bytes = src.bytes ∧
    (ok → target' = written target (src.bytes.drop src.position) ∧
      source' = advance src (src.bytes.drop src.position).length) ∧
    ∃ n, target'.bytes = put target.bytes target.position ((src.bytes.drop src.position).take n) := by
  by_cases hall : setting.source ∧ setting.destination ∧ setting.memory
  · obtain ⟨hpinned, hother, hmemory⟩ := hall
    obtain ⟨⟨hwritten, hpart⟩, hsame, hread⟩ := copyLoop_copied hreads writes src target 0 0
    simp only [copyFile, hpinned, hother, hmemory, not_true, if_false, if_true, Prod.mk.injEq] at h
    obtain ⟨rfl, rfl, rfl, rfl⟩ := h
    refine ⟨rfl, hsame, fun hok ↦ ?_, hpart⟩
    have hdone := (Bool.and_eq_true_iff.mp hok).1
    exact ⟨hwritten hdone, hread hdone⟩
  · have hnothing : copyFile reads writes setting src target held = (false, src, target, held) := by
      unfold copyFile
      split_ifs <;> simp_all
    rw [hnothing] at h
    cases h
    exact ⟨rfl, rfl, nofun, 0, rfl⟩

/-- A copy of three bytes behind the first, written byte by byte. -/
def copyByOne : Bool × FileObject × FileObject × Holdings :=
  copyFile (fun _ ↦ ⟨some 2, true⟩) (fun _ ↦ ⟨some 1, true⟩) ⟨true, true, true, none, none, none⟩
    ⟨[1, 2, 3, 4], 1, true, false, false⟩ ⟨[9, 9], 1, false, true, false⟩ ⟨0, 0, 0⟩

theorem copyFile_exact_copyByOne :
    copyByOne.1 ∧ copyByOne.2.2.2 = ⟨0, 0, 0⟩ ∧ copyByOne.2.2.1.bytes = put [9, 9] 1 [2, 3, 4] := by
  have hreads : ∀ call : ℕ, ((fun _ ↦ ⟨some 2, true⟩ : ℕ → Answer) call).done ≠ some 0 := by simp
  have hexact := copyFile_exact _ hreads _ _ _ _ (show copyByOne = (_, _, _, _) from rfl)
  have hok : copyByOne.1 := by decide +kernel
  exact ⟨hok, hexact.1, congrArg FileObject.bytes (hexact.2.2.1 hok).1⟩

end DotnetPal.Native.Transfers
