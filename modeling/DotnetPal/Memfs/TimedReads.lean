import DotnetPal.Memfs.Watches

/-!
# Reads that wait

`Watches::read` looks at its queue, lets other threads run and looks again. What the others did is in
the state each look finds, whatever it is: a read is given the rounds of its loop, with the hooks as
they are then. Time is counted in slices the wait hook is asked for, or taken from the clock.
-/

namespace DotnetPal.Memfs.Watches

open Programs

/-- The longest a read lets other threads run before it looks again. -/
def waitSlice : ℕ := 10000000

/-- The time-out that never comes, the largest number of 64 bits. -/
def forever : ℕ := 0xffffffffffffffff

/-- What a turn of the loop finds: the state under the lock, whether a wait hook is set,
and the clock. -/
structure Round where
  env : Env
  state : State
  wait : Bool
  clock : Option ℕ

/-- The locals of a read, with the looks it took and the slices it asked for. -/
structure Reading where
  left : ℕ
  deadline : Option ℕ
  looks : ℕ
  asked : List ℕ

inductive Answer
  | event (event : Offer)
  | failed (fault : Fault)
  | timeout
  | underflow

section

variable (rounds : ℕ → Round) (watcher timeout : ℕ)

/-- What the look of a turn answers. The queue it leaves is in the states of the later turns. -/
def looked (turn : ℕ) : Result (Option Offer) := do
  let (event, _) ← popped (rounds turn).env watcher (rounds turn).state
  return event

/-- The turn behind a look that found nothing: go on, or end. -/
def wait (round : Round) (r : Reading) : Reading × Option Answer :=
  if r.left = 0 then (r, some .timeout)
  else if round.wait then
    let slice := min r.left waitSlice
    let r := { r with asked := r.asked ++ [slice] }
    if timeout = forever then (r, none)
    else if r.left < slice then (r, some .underflow)
    else ({ r with left := r.left - slice }, none)
  else if timeout = forever then (r, none)
  else
    match round.clock with
    | none => (r, some .timeout)
    | some now =>
      let deadline := r.deadline.getD (min (now + timeout) forever)
      ({ r with deadline := some deadline }, if deadline ≤ now then some .timeout else none)

/-- The loop, for as many turns as the bound allows. -/
def readFor : ℕ → Reading → Reading × Option Answer
  | 0, r => (r, none)
  | fuel + 1, r =>
    let seen := { r with looks := r.looks + 1 }
    match looked rounds watcher r.looks with
    | .error fault => (seen, some (.failed fault))
    | .ok (some event) => (seen, some (.event event))
    | .ok none =>
      match wait timeout (rounds r.looks) seen with
      | (r, none) => readFor fuel r
      | done => done

def read (fuel : ℕ) : Reading × Option Answer := readFor rounds watcher timeout fuel ⟨timeout, none, 0, []⟩

/-- The event is the first one in the watcher's queue. -/
def Oldest (s : State) (watcher : ℕ) (event : Offer) : Prop :=
  ∃ id found record rest, s.watcherId watcher = .ok id ∧ s.watcher id = .ok found ∧
    Queue.front found.queue.bytes.data = some (record, rest) ∧
    event = Queue.delivered record.1 record.2.1 record.2.2.1 record.2.2.2

/-- The time is what was asked for and what is left, and no look so far found anything. -/
structure Fair (r : Reading) : Prop where
  time : r.asked.sum + r.left = timeout
  slices : ∀ slice ∈ r.asked, slice ≤ waitSlice
  nothing : ∀ turn < r.looks, looked rounds watcher turn = .ok none

/-- What a look found is the answer. -/
def Told (look : Result (Option Offer)) (answer : Answer) : Prop :=
  (∀ event, answer = .event event → look = .ok (some event)) ∧
    ∀ fault, answer = .failed fault → look = .error fault

/-- What the end of a timed read has to say for itself. -/
structure Ended (r : Reading) (answer : Answer) : Prop where
  time : r.asked.sum ≤ timeout
  slices : ∀ slice ∈ r.asked, slice ≤ waitSlice
  counted : answer ≠ .underflow
  looks : 1 ≤ r.looks
  told : Told (looked rounds watcher (r.looks - 1)) answer
  late : answer = .timeout → r.asked.sum = timeout ∧ looked rounds watcher (r.looks - 1) = .ok none
  found : ∀ turn < r.looks, ∀ event, looked rounds watcher turn = .ok (some event) →
    answer = .event event ∧ Oldest (rounds turn).state watcher event

variable {rounds watcher timeout}

theorem oldest_of_looked {turn : ℕ} {event : Offer} (h : looked rounds watcher turn = .ok (some event)) :
    Oldest (rounds turn).state watcher event := by
  obtain ⟨_, hpopped, hevent⟩ := except_bind_eq_ok_iff.1 h
  obtain ⟨id, hid, hpopped⟩ := except_bind_eq_ok_iff.1 hpopped
  obtain ⟨found, hfound, hpopped⟩ := except_bind_eq_ok_iff.1 hpopped
  obtain ⟨⟨_, queue⟩, hpop, hpopped⟩ := except_bind_eq_ok_iff.1 hpopped
  cases hpopped
  cases hevent
  unfold Queue.pop at hpop
  split at hpop
  · cases hpop
  · split at hpop
    · cases hpop
    · rename_i hfront
      cases hpop
      exact ⟨id, found, _, _, hid, hfound, hfront, rfl⟩

variable {r : Reading}

theorem Fair.ended (h : Fair rounds watcher timeout r) {answer : Answer}
    (hunderflow : answer ≠ .underflow) (htold : Told (looked rounds watcher r.looks) answer)
    (hlate : answer = .timeout → r.left = 0 ∧ looked rounds watcher r.looks = .ok none)
    (hfound : ∀ event, looked rounds watcher r.looks = .ok (some event) → answer = .event event) :
    Ended rounds watcher timeout { r with looks := r.looks + 1 } answer where
  time := Nat.le.intro h.time
  slices := h.slices
  counted := hunderflow
  looks := Nat.succ_pos _
  told := htold
  late h' := ⟨by have := h.time; rwa [(hlate h').1] at this, (hlate h').2⟩
  found turn hturn event hevent := by
    refine ⟨?_, oldest_of_looked hevent⟩
    rcases Nat.lt_succ_iff_lt_or_eq.1 hturn with hturn | rfl
    · rw [h.nothing turn hturn] at hevent
      cases hevent
    · exact hfound event hevent

/-- A slice goes from the time that is left to the time that was asked for. -/
theorem Fair.waited (h : Fair rounds watcher timeout r) (hlook : looked rounds watcher r.looks = .ok none) :
    Fair rounds watcher timeout
      ⟨r.left - min r.left waitSlice, r.deadline, r.looks + 1, r.asked ++ [min r.left waitSlice]⟩ where
  time := by
    have := h.time
    simp only [List.sum_append, List.sum_singleton]
    omega
  slices slice hslice := by
    rcases List.mem_append.1 hslice with hslice | hslice
    · exact h.slices slice hslice
    · rw [List.mem_singleton.1 hslice]
      exact min_le_right _ _
  nothing turn hturn := by
    rcases Nat.lt_succ_iff_lt_or_eq.1 hturn with hturn | rfl
    · exact h.nothing turn hturn
    · exact hlook

end

end DotnetPal.Memfs.Watches
