import DotnetPal.Foundations.Machines
import DotnetPal.Foundations.Ring
import DotnetPal.Port

/-!
# Reading a child's pipe through a buffer

A thread of its own blocks in the boundary's `pipe_read` and fills a ring; every Read of the pipe
takes from the ring. The ring and its flags are used under the table lock, but the room is measured
before the blocking read, and the events `room` and `arrived` are set after the lock is let go. A
step is what a thread does between two points where another may come in.
-/

open List Option Function

namespace DotnetPal.Native

open Programs

/-- `READER_CAPACITY`. -/
abbrev readerCapacity : ℕ := 64 * 1024

/-- The buffer on the reader's stack. -/
def chunkSize : ℕ := 4096

/-- Where the reader thread is. -/
inductive ReaderPhase
  /-- Before the lock at the top of the loop. -/
  | top
  /-- Waiting for room. -/
  | full
  /-- In `pipe_read`, for at most so many bytes. -/
  | reading (asked : ℕ)
  /-- After the lock below, about to set `arrived`. -/
  | announcing (ended : Bool)
  | stopped
  deriving DecidableEq

/-- Where a Read through the buffer is. -/
inductive ReadPhase
  | idle
  /-- Before the lock. -/
  | looking (size : ℕ)
  /-- Took bytes, about to set `room` and return. -/
  | taken
  /-- Found nothing, before it looks at the mode. -/
  | empty (size : ℕ)
  /-- Waiting for bytes. -/
  | waiting (size : ℕ)
  deriving DecidableEq

/-- The buffer of a Read, if it goes on, has room. -/
def ReadPhase.Sized : ReadPhase → Prop
  | .looking size | .empty size | .waiting size => 0 < size
  | _ => True

/-- What `pipe_read` returned to the reader; no bytes are the end of the stream. -/
inductive Arrival
  | chunk (bytes : List UInt8)
  | failed (error : Error)

/-- How many bytes `pipe_read` wrote. -/
def Arrival.got : Arrival → ℕ
  | .chunk bytes => bytes.length
  | .failed _ => 0

/-- What a Read found under the lock: bytes it returns, the end or an error it returns, or nothing. -/
inductive Pass
  | bytes (bytes : List UInt8)
  | done (error : Option Errno)
  | empty
  deriving DecidableEq

def Pass.taken : Pass → List UInt8
  | .bytes found => found
  | _ => []

/-- Where a Read with a buffer of the given size goes on. -/
def Pass.phase (size : ℕ) : Pass → ReadPhase
  | .bytes _ => .taken
  | .done _ => .idle
  | .empty => .empty size

/-- `sn_pipe_reader`, and what is going on with it. -/
structure Pipe where
  ring : Ring UInt8 readerCapacity
  ended : Bool
  closing : Bool
  error : Option Errno
  room : Bool
  arrived : Bool
  nonblocking : Bool
  reader : ReaderPhase
  reads : ℕ → ReadPhase
  /-- All bytes the reader stored, and what the Reads found, in the order of their locked sections. -/
  stored : List UInt8
  passes : List Pass

namespace Pipe

def withRead (id : ℕ) (phase : ReadPhase) (w : Pipe) : Pipe :=
  { w with reads := update w.reads id phase }

/-- Where the top of the reader's loop leads to. -/
def ahead (w : Pipe) : ReaderPhase :=
  if w.closing then .stopped
  else if readerCapacity - w.ring.count = 0 then .full
  else .reading (min (readerCapacity - w.ring.count) chunkSize)

/-- The locked section behind `pipe_read`. -/
def arrive (arrival : Arrival) (w : Pipe) : Pipe :=
  match arrival with
  | .failed error => { w with error := some (snErrno error), ended := true, reader := .announcing true }
  | .chunk [] => { w with ended := true, reader := .announcing true }
  | .chunk bytes =>
    { w with
      ring := w.ring.store bytes
      reader := .announcing w.ended
      stored := w.stored ++ bytes }

/-- What a Read finds, for a buffer of the given size. -/
def found (size : ℕ) (w : Pipe) : Pass :=
  if 0 < min w.ring.count size then .bytes (w.ring.peek (min w.ring.count size))
  else if w.ended then .done w.error
  else .empty

/-- The locked section of a Read. -/
def pass (id size : ℕ) (w : Pipe) : Pipe :=
  { w with
    ring := w.ring.drop (min w.ring.count size)
    passes := w.passes ++ [w.found size] }.withRead id ((w.found size).phase size)

inductive Action
  /-- The reader thread. -/
  | look
  | wakeRoom
  | arrive (arrival : Arrival)
  | announce
  /-- A Read that has pinned the pipe. -/
  | read (id size : ℕ)
  | pass (id : ℕ)
  | finish (id : ℕ)
  /-- A Read that found nothing looks at the mode: it returns or waits. -/
  | choose (id : ℕ)
  | wake (id : ℕ)
  | setMode (nonblocking : Bool)
  /-- The last descriptor closes. -/
  | close

def next : Action → Pipe → Option Pipe
  | .look, w => if w.reader = .top then some { w with reader := w.ahead } else none
  | .wakeRoom, w =>
    if w.reader = .full ∧ w.room then some { w with room := false, reader := .top } else none
  | .arrive arrival, w =>
    match w.reader with
    | .reading asked => if arrival.got ≤ asked then some (w.arrive arrival) else none
    | _ => none
  | .announce, w =>
    match w.reader with
    | .announcing ended => some { w with arrived := true, reader := if ended then .stopped else .top }
    | _ => none
  | .read id size, w =>
    if w.reads id = .idle ∧ 0 < size ∧ w.closing = false then some (w.withRead id (.looking size)) else none
  | .pass id, w =>
    match w.reads id with
    | .looking size => some (w.pass id size)
    | _ => none
  | .finish id, w =>
    if w.reads id = .taken then some ({ w with room := true }.withRead id .idle) else none
  | .choose id, w =>
    match w.reads id with
    | .empty size => some (w.withRead id (if w.nonblocking then .idle else .waiting size))
    | _ => none
  | .wake id, w =>
    match w.reads id with
    | .waiting size =>
      if w.arrived then some ({ w with arrived := false }.withRead id (.looking size)) else none
    | _ => none
  | .setMode nonblocking, w => some { w with nonblocking := nonblocking }
  | .close, w => if w.closing = false then some { w with closing := true, room := true } else none

def initial : Pipe where
  ring := ⟨fun _ ↦ 0, 0, 0⟩
  ended := false
  closing := false
  error := none
  room := false
  arrived := false
  nonblocking := false
  reader := .top
  reads _ := .idle
  stored := []
  passes := []

def machine : Machine Pipe Action := ⟨initial, next⟩

/-- What a step does. -/
inductive Step (w : Pipe) : Action → Pipe → Prop
  | look : w.reader = .top → Step w .look { w with reader := w.ahead }
  | wakeRoom : w.reader = .full → Step w .wakeRoom { w with room := false, reader := .top }
  | arrive {asked arrival} : w.reader = .reading asked → arrival.got ≤ asked →
      Step w (.arrive arrival) (w.arrive arrival)
  | announce {ended} : w.reader = .announcing ended →
      Step w .announce { w with arrived := true, reader := if ended then .stopped else .top }
  | read {id size} : w.reads id = .idle → 0 < size → w.closing = false →
      Step w (.read id size) (w.withRead id (.looking size))
  | pass {id size} : w.reads id = .looking size → Step w (.pass id) (w.pass id size)
  | finish {id} : w.reads id = .taken → Step w (.finish id) ({ w with room := true }.withRead id .idle)
  | refuse {id size} : w.reads id = .empty size → w.nonblocking = true →
      Step w (.choose id) (w.withRead id .idle)
  | wait {id size} : w.reads id = .empty size → w.nonblocking = false →
      Step w (.choose id) (w.withRead id (.waiting size))
  | wake {id size} : w.reads id = .waiting size → w.arrived = true →
      Step w (.wake id) ({ w with arrived := false }.withRead id (.looking size))
  | setMode {nonblocking} : Step w (.setMode nonblocking) { w with nonblocking := nonblocking }
  | close : w.closing = false → Step w .close { w with closing := true, room := true }

variable {action : Action}

theorem step_of_next {w final : Pipe} (h : next action w = some final) : Step w action final := by
  cases action with
  | look =>
    obtain ⟨htop, ⟨⟩⟩ := ite_none_right_eq_some.mp h
    exact .look htop
  | wakeRoom =>
    obtain ⟨⟨hfull, _⟩, ⟨⟩⟩ := ite_none_right_eq_some.mp h
    exact .wakeRoom hfull
  | arrive arrival =>
    cases hreader : w.reader with
    | reading asked =>
      simp only [next, hreader] at h
      obtain ⟨hgot, ⟨⟩⟩ := ite_none_right_eq_some.mp h
      exact .arrive hreader hgot
    | top | full | announcing | stopped => simp [next, hreader] at h
  | announce =>
    cases hreader : w.reader with
    | announcing ended =>
      simp only [next, hreader, some.injEq] at h
      exact h ▸ .announce hreader
    | top | full | reading | stopped => simp [next, hreader] at h
  | read id size =>
    obtain ⟨⟨hidle, hsize, hclosing⟩, ⟨⟩⟩ := ite_none_right_eq_some.mp h
    exact .read hidle hsize hclosing
  | pass id =>
    cases hp : w.reads id with
    | looking size =>
      simp only [next, hp, some.injEq] at h
      exact h ▸ .pass hp
    | idle | taken | empty | waiting => simp [next, hp] at h
  | finish id =>
    obtain ⟨htaken, ⟨⟩⟩ := ite_none_right_eq_some.mp h
    exact .finish htaken
  | choose id =>
    cases hp : w.reads id with
    | empty size =>
      simp only [next, hp, some.injEq] at h
      cases hmode : w.nonblocking with
      | true =>
        rw [hmode, if_pos rfl] at h
        exact h ▸ .refuse hp hmode
      | false =>
        rw [hmode, if_neg (by decide)] at h
        exact h ▸ .wait hp hmode
    | idle | taken | looking | waiting => simp [next, hp] at h
  | wake id =>
    cases hp : w.reads id with
    | waiting size =>
      simp only [next, hp] at h
      obtain ⟨harrived, ⟨⟩⟩ := ite_none_right_eq_some.mp h
      exact .wake hp harrived
    | idle | taken | looking | empty => simp [next, hp] at h
  | setMode nonblocking =>
    cases h
    exact .setMode
  | close =>
    obtain ⟨hclosing, ⟨⟩⟩ := ite_none_right_eq_some.mp h
    exact .close hclosing

/-! ## The stream -/

/-- The bytes the Reads returned. -/
def returned (w : Pipe) : List UInt8 := w.passes.flatMap Pass.taken

/-- What holds of the ring and of what went through it. -/
structure Flow (w : Pipe) : Prop where
  head_lt : w.ring.head < readerCapacity
  count_le : w.ring.count ≤ readerCapacity
  /-- The room a blocking read was started with is still there when it returns. -/
  room : ∀ asked, w.reader = .reading asked → w.ring.count + asked ≤ readerCapacity
  stored_eq : w.returned ++ w.ring.contents = w.stored
  /-- The reader does not go on after the end. -/
  ended : w.ended = true → w.reader = .announcing true ∨ w.reader = .stopped
  done : ∀ error, .done error ∈ w.passes → w.ended = true ∧ w.ring.count = 0 ∧ w.error = error
  last : ∀ before error after, w.passes = before ++ .done error :: after →
    before.flatMap Pass.taken = w.stored ∧ ∀ pass ∈ after, pass = .done error

variable {w final : Pipe} {id size : ℕ}

theorem flow_initial : Flow initial :=
  ⟨by decide, by decide, fun _ h ↦ by simp [initial] at h, rfl, fun h ↦ by simp [initial] at h,
    fun _ h ↦ by simp [initial] at h, fun _ _ _ h ↦ by simp [initial] at h⟩

theorem Flow.look (h : Flow w) (htop : w.reader = .top) : Flow { w with reader := w.ahead } := by
  have hn := h.count_le
  refine { h with room := fun asked hasked ↦ ?_, ended := fun hended ↦ by simpa [htop] using h.ended hended }
  simp only [ahead] at hasked ⊢
  split_ifs at hasked with hclosing hfull
  rw [ReaderPhase.reading.injEq] at hasked
  omega

theorem Flow.arrive {arrival : Arrival} {asked : ℕ} (h : Flow w) (hreading : w.reader = .reading asked)
    (hgot : arrival.got ≤ asked) : Flow (w.arrive arrival) := by
  have hunended : w.ended = false := by
    rw [← Bool.not_eq_true]
    intro hended
    simpa [hreading] using h.ended hended
  have hdone : ∀ error, .done error ∉ w.passes := fun error hmem ↦ by
    simpa [hunended] using (h.done error hmem).1
  have hroom := h.room asked hreading
  unfold Pipe.arrive
  split
  · refine ⟨h.head_lt, h.count_le, fun _ heq ↦ by simp at heq, h.stored_eq, fun _ ↦ .inl rfl,
      fun error hmem ↦ absurd hmem (hdone error), fun old error new heq ↦ ?_⟩
    exact absurd (heq ▸ by simp) (hdone error)
  · refine ⟨h.head_lt, h.count_le, fun _ heq ↦ by simp at heq, h.stored_eq, fun _ ↦ .inl rfl,
      fun error hmem ↦ absurd hmem (hdone error), fun old error new heq ↦ ?_⟩
    exact absurd (heq ▸ by simp) (hdone error)
  · rename_i bytes _
    have hfits : w.ring.count + bytes.length ≤ readerCapacity := (Nat.add_le_add_left hgot _).trans hroom
    refine ⟨?_, ?_, fun _ heq ↦ by simp at heq, ?_, fun hended ↦ by simp [hunended] at hended,
      fun error hmem ↦ absurd hmem (hdone error), fun old error new heq ↦ ?_⟩
    · rw [Ring.head_store]
      exact h.head_lt
    · rwa [Ring.count_store]
    · rw [Ring.contents_store hfits, ← append_assoc, ← h.stored_eq]
      rfl
    · exact absurd (heq ▸ by simp) (hdone error)

/-- What a Read finds is what leaves the ring. -/
theorem taken_found (w : Pipe) (size : ℕ) :
    (w.found size).taken ++ (w.ring.drop (min w.ring.count size)).contents = w.ring.contents := by
  have htake : min w.ring.count size ≤ w.ring.count := Nat.min_le_left _ _
  have hdrop := Ring.peek_append_contents_drop htake
  unfold found
  split_ifs with hpos hended
  · exact hdrop
  · rw [Nat.eq_zero_of_not_pos hpos] at hdrop ⊢
    exact hdrop
  · rw [Nat.eq_zero_of_not_pos hpos] at hdrop ⊢
    exact hdrop

/-- The end and an error are found only in an empty ring, and then every time. -/
theorem found_done {error : Option Errno} (hsize : 0 < size) :
    w.found size = .done error ↔ w.ring.count = 0 ∧ w.ended = true ∧ w.error = error := by
  unfold found
  split_ifs with hpos hended
  · simp only [false_iff]
    rintro ⟨hn, _⟩
    omega
  · have hn : w.ring.count = 0 := by omega
    simp [hn, hended]
  · simp [hended]

theorem Flow.pass (h : Flow w) (hsize : 0 < size) : Flow (w.pass id size) := by
  have hn : (w.ring.drop (min w.ring.count size)).count ≤ w.ring.count := Nat.sub_le _ _
  have hdone : ∀ error, .done error ∈ (w.passes ++ [w.found size]) →
      w.ended = true ∧ w.ring.count = 0 ∧ w.error = error := by
    intro error hmem
    rcases mem_append.mp hmem with hold | hnew
    · exact h.done error hold
    · obtain ⟨hzero, hended, herror⟩ := (found_done hsize).mp (mem_singleton.mp hnew).symm
      exact ⟨hended, hzero, herror⟩
  have hstored := h.stored_eq
  refine ⟨Ring.head_drop_lt _, hn.trans h.count_le, fun asked hasked ↦ ?_, ?_, h.ended, fun error hmem ↦ ?_,
    fun old error new heq ↦ ?_⟩
  · have hroom := h.room asked hasked
    exact (Nat.add_le_add_right hn asked).trans hroom
  · change (w.passes ++ [w.found size]).flatMap Pass.taken ++ _ = w.stored
    rw [flatMap_append, flatMap_singleton, append_assoc]
    exact (congrArg _ (taken_found w size)).trans hstored
  · obtain ⟨hended, hzero, herror⟩ := hdone error hmem
    exact ⟨hended, Nat.eq_zero_of_le_zero (hzero ▸ hn), herror⟩
  · rcases eq_nil_or_concat new with rfl | ⟨middle, last, rfl⟩
    · -- The new pass is the first that found the end: the ring is empty.
      obtain ⟨hbefore, hlast⟩ := append_inj' heq rfl
      obtain ⟨hzero, _⟩ := (found_done hsize).mp (singleton_inj.mp hlast)
      rw [returned, Ring.contents_eq_nil_iff.mpr hzero, append_nil, hbefore] at hstored
      exact ⟨hstored, by simp⟩
    · rw [concat_eq_append, ← cons_append, ← append_assoc] at heq
      obtain ⟨hbefore, hlast⟩ := append_inj' heq rfl
      obtain ⟨htaken, hsame⟩ := h.last old error middle hbefore
      refine ⟨htaken, fun pass hpass ↦ ?_⟩
      rw [concat_eq_append] at hpass
      rcases mem_append.mp hpass with hold | hnew
      · exact hsame pass hold
      · obtain ⟨hended, hzero, herror⟩ := h.done error (hbefore ▸ by simp)
        rw [mem_singleton.mp hnew, ← singleton_inj.mp hlast]
        exact (found_done hsize).mpr ⟨hzero, hended, herror⟩

/-- The stream with the sizes of the Reads. -/
structure Streaming (w : Pipe) : Prop where
  flow : Flow w
  sized : ∀ id, (w.reads id).Sized

theorem streaming_initial : Streaming initial := ⟨flow_initial, fun _ ↦ trivial⟩

theorem sized_withRead {phase : ReadPhase} (h : ∀ id, (w.reads id).Sized) (hp : phase.Sized) :
    ∀ x, ((w.withRead id phase).reads x).Sized := by
  intro x
  by_cases hx : x = id
  · subst hx
    simpa [withRead] using hp
  · simpa [withRead, hx] using h x

theorem Streaming.step (h : Streaming w) (hstep : Step w action final) : Streaming final := by
  have hflow := h.flow
  cases hstep with
  | look htop => exact ⟨hflow.look htop, h.sized⟩
  | wakeRoom hfull =>
    refine ⟨{ hflow with room := fun _ heq ↦ by simp at heq, ended := fun hended ↦ ?_ }, h.sized⟩
    simpa [hfull] using hflow.ended hended
  | @arrive asked arrival hreading hgot =>
    have hreads : (w.arrive arrival).reads = w.reads := by
      unfold Pipe.arrive
      split <;> rfl
    exact ⟨hflow.arrive hreading hgot, hreads ▸ h.sized⟩
  | @announce ended hannouncing =>
    refine ⟨{ hflow with room := fun asked heq ↦ ?_, ended := fun hended ↦ ?_ }, h.sized⟩
    · cases ended <;> simp at heq
    · cases ended with
      | true => exact .inr rfl
      | false => simpa [hannouncing] using hflow.ended hended
  | read _ hsize _ =>
    exact ⟨{ hflow with }, sized_withRead h.sized hsize⟩
  | @pass id size hlooking =>
    have hsize := h.sized id
    rw [hlooking] at hsize
    refine ⟨hflow.pass hsize, sized_withRead h.sized ?_⟩
    cases w.found size with
    | bytes | done => trivial
    | empty => exact hsize
  | finish | refuse =>
    exact ⟨{ hflow with }, sized_withRead h.sized trivial⟩
  | @wait id size hempty =>
    have hsize := h.sized id
    rw [hempty] at hsize
    exact ⟨{ hflow with }, sized_withRead h.sized hsize⟩
  | @wake id size hwaiting =>
    have hsize := h.sized id
    rw [hwaiting] at hsize
    exact ⟨{ hflow with }, sized_withRead h.sized hsize⟩
  | setMode | close => exact ⟨{ hflow with }, h.sized⟩

/-- In every interleaving the Reads return, in the order of their locked sections, what the reader
stored and nothing else; all of it where the ring is empty. The ring never has more than it can
hold, also when the blocking read under way returns all it was asked for. The end or an error is
found only when every stored byte was returned, and by every later Read again. -/
theorem stream_of_reachable (hreach : machine.runs.Reachable w) :
    w.returned <+: w.stored ∧ (w.ring.count = 0 → w.returned = w.stored) ∧
    w.ring.count ≤ readerCapacity ∧ w.ring.head < readerCapacity ∧
    (∀ asked, w.reader = .reading asked → w.ring.count + asked ≤ readerCapacity) ∧
    (∀ before error after, w.passes = before ++ .done error :: after →
      before.flatMap Pass.taken = w.stored ∧ ∀ pass ∈ after, pass = .done error) := by
  have hstreaming : Streaming w :=
    Machine.invariant streaming_initial (fun _ _ _ _ hpipe hnext ↦ hpipe.step (step_of_next hnext)) hreach
  have h := hstreaming.flow
  refine ⟨⟨_, h.stored_eq⟩, fun hcount ↦ ?_, h.count_le, h.head_lt, h.room, h.last⟩
  rw [← h.stored_eq, Ring.contents_eq_nil_iff.mpr hcount, append_nil]

/-- Three bytes that two Reads take, and the end. -/
def threeBytes : List Action :=
  [.look, .arrive (.chunk [1, 2, 3]), .announce, .read 0 2, .read 1 8, .pass 1, .finish 1, .pass 0, .look,
    .arrive (.chunk []), .choose 0, .announce, .wake 0, .pass 0]

theorem stream_of_reachable_threeBytes :
    ∃ w, machine.run threeBytes machine.start = some w ∧ w.passes = [.bytes [1, 2, 3], .empty, .done none] ∧
      w.returned = w.stored := by
  have hrun : ∃ w, machine.run threeBytes machine.start = some w ∧
      w.passes = [.bytes [1, 2, 3], .empty, .done none] ∧ w.ring.count = 0 := ⟨_, rfl, rfl, rfl⟩
  obtain ⟨w, hpipe, hpasses, hcount⟩ := hrun
  exact ⟨w, hpipe, hpasses, (stream_of_reachable (Machine.reachable_of_run hpipe)).2.1 hcount⟩

/-! ## Waiting for bytes -/

/-- A Read waits for an event nobody is about to set, with something there to return. -/
def Stranded (w : Pipe) : Prop :=
  ∃ id size, w.reads id = .waiting size ∧ w.arrived = false ∧ (∀ ended, w.reader ≠ .announcing ended) ∧
    (0 < w.ring.count ∨ w.ended = true ∨ w.reader = .stopped)

/-- A Read that waits, or will wait if it finds nothing. -/
def Blocks (w : Pipe) (id : ℕ) : Prop :=
  (∃ size, w.reads id = .waiting size) ∨ (w.reads id ≠ .idle ∧ w.nonblocking = false)

/-- One Read at a time while the pipe is blocking, and the last descriptor closes when none blocks. -/
def OneReader : Action → Pipe → Prop
  | .read _ _, w => w.nonblocking = true ∨ ∀ other, w.reads other = .idle
  | .setMode nonblocking, w => nonblocking = true ∨ ∀ other, w.reads other = .idle
  | .close, w => ∀ other, ¬ w.Blocks other
  | _, _ => True

/-- A Read that waits will be woken, or has nothing to be woken for yet. -/
structure Attended (w : Pipe) : Prop where
  one_reader : w.nonblocking = true ∨ ∀ first second, w.reads first ≠ .idle →
    w.reads second ≠ .idle → first = second
  one_waits : ∀ first second size other, w.reads first = .waiting size →
    w.reads second = .waiting other → first = second
  covered : ∀ id size, (w.reads id = .waiting size ∨ (w.reads id = .empty size ∧ w.nonblocking = false)) →
    w.arrived = true ∨ (∃ ended, w.reader = .announcing ended) ∨
      (w.ring.count = 0 ∧ w.ended = false ∧ w.reader ≠ .stopped)
  closed : w.closing = true → ∀ id, ¬ w.Blocks id
  announced : w.reader = .announcing true → w.ended = true
  stopped : w.reader = .stopped → w.ended = true ∨ w.closing = true

variable (h : Attended w)
include h

theorem Attended.not_stranded : ¬ w.Stranded := by
  rintro ⟨id, size, hwaiting, harrived, hquiet, hthere⟩
  rcases h.covered id size (.inl hwaiting) with hset | ⟨ended, hannouncing⟩ | ⟨hn, hended, hrunning⟩
  · simp [harrived] at hset
  · exact hquiet ended hannouncing
  · rcases hthere with hpos | hend | hstopped
    · omega
    · simp [hended] at hend
    · exact hrunning hstopped

omit h in
theorem attended_initial : Attended initial where
  one_reader := .inr fun _ _ h ↦ absurd rfl h
  one_waits _ _ _ _ h := by simp [initial] at h
  covered _ _ h := by simp [initial] at h
  closed h := by simp [initial] at h
  announced h := by simp [initial] at h
  stopped h := by simp [initial] at h

/-- A step of a Read in progress. It waits only after it found nothing, and only a Read that waited
takes the event. -/
theorem Attended.turn {phase : ReadPhase} {ring : Ring UInt8 readerCapacity} {room arrived : Bool}
    {passes : List Pass} (hbusy : w.reads id ≠ .idle) (hn : w.ring.count = 0 → ring.count = 0)
    (hwait : ∀ size, phase = .waiting size → w.reads id = .empty size ∧ w.nonblocking = false)
    (hempty : ∀ size, phase = .empty size → w.ring.count = 0 ∧ w.ended = false)
    (harrived : arrived = w.arrived ∨ ∃ size, w.reads id = .waiting size) :
    Attended { w with ring, room, arrived, reads := update w.reads id phase, passes } := by
  generalize hreads : update w.reads id phase = reads
  have hself : reads id = phase := by rw [← hreads, update_self]
  have hrest : ∀ j, j ≠ id → reads j = w.reads j := fun j hj ↦ by
    rw [← hreads, update_of_ne hj]
  have hbusyBefore : ∀ j, reads j ≠ .idle → w.reads j ≠ .idle := by
    intro j hj
    by_cases heq : j = id
    · rwa [heq]
    · rwa [← hrest j heq]
  have hone : w.nonblocking = true ∨ ∀ a b, reads a ≠ .idle → reads b ≠ .idle → a = b :=
    h.one_reader.imp_right fun hall a b ha hb ↦
      hall a b (hbusyBefore a ha) (hbusyBefore b hb)
  have hwaiting : ∀ j size, reads j = .waiting size → j = id ∨ w.reads j = .waiting size := by
    intro j size hj
    by_cases heq : j = id
    · exact .inl heq
    · exact .inr (by rwa [← hrest j heq])
  have hcovered : ∀ x size,
      (w.reads x = .waiting size ∨ (w.reads x = .empty size ∧ w.nonblocking = false)) → arrived =
        w.arrived →
      arrived = true ∨ (∃ ended, w.reader = .announcing ended) ∨
        (ring.count = 0 ∧ w.ended = false ∧ w.reader ≠ .stopped) := by
    intro x size hx hkept
    rw [hkept]
    exact (h.covered x size hx).imp_right (Or.imp_right fun ⟨hzero, hrunning⟩ ↦ ⟨hn hzero, hrunning⟩)
  refine ⟨hone, fun a b size j ha hb ↦ ?_, fun x size hx ↦ ?_, fun hclosed x hblocks ↦ ?_,
    h.announced, h.stopped⟩
  · -- A Read that begins to wait in blocking mode is the only one in progress.
    simp only at ha hb
    have hbegins : ∀ size, phase = .waiting size → a = b := fun size hp ↦ by
      refine (hone.resolve_left ?_) a b (by simp [ha]) (by simp [hb])
      simp [(hwait size hp).2]
    rcases hwaiting a size ha with rfl | hone'
    · exact hbegins size (hself.symm.trans ha)
    · rcases hwaiting b j hb with rfl | htwo
      · exact hbegins j (hself.symm.trans hb)
      · exact h.one_waits a b size j hone' htwo
  · by_cases heq : x = id
    · subst heq
      simp only [hself] at hx
      rcases hx with hp | ⟨hp, hblocking⟩
      · obtain ⟨hold, hblocking⟩ := hwait size hp
        refine hcovered x size (.inr ⟨hold, hblocking⟩) (harrived.resolve_right fun ⟨j, hj⟩ ↦ ?_)
        simp [hold] at hj
      · obtain ⟨hzero, hrunning⟩ := hempty size hp
        refine .inr (.inr ⟨hn hzero, hrunning, fun hstop ↦ ?_⟩)
        rcases h.stopped hstop with hend | hclosed
        · simp [hrunning] at hend
        · exact h.closed hclosed x (.inr ⟨hbusy, hblocking⟩)
    · simp only [hrest x heq] at hx
      refine hcovered x size hx (harrived.resolve_right fun ⟨j, hj⟩ ↦ heq ?_)
      rcases hx with hwaits | ⟨hempties, hblocking⟩
      · exact h.one_waits x id size j hwaits hj
      · exact h.one_reader.resolve_left (by simp [hblocking]) x id (by simp [hempties]) hbusy
  · refine h.closed hclosed x ?_
    rcases hblocks with ⟨size, hwaits⟩ | ⟨hprogress, hblocking⟩
    · rcases hwaiting x size hwaits with rfl | hold
      · exact .inr ⟨hbusy, (hwait size (hself.symm.trans hwaits)).2⟩
      · exact .inl ⟨size, hold⟩
    · exact .inr ⟨hbusyBefore x hprogress, hblocking⟩

theorem Attended.read (hclosing : w.closing = false)
    (hone : w.nonblocking = true ∨ ∀ j, w.reads j = .idle) : Attended (w.withRead id (.looking size)) := by
  have hrest : ∀ j phase, phase ≠ .looking size → (w.withRead id (.looking size)).reads j = phase →
      phase ≠ .idle → w.reads j = phase := by
    intro j phase hlooking hj _
    by_cases heq : j = id
    · subst heq
      simp [withRead, eq_comm, hlooking] at hj
    · simpa [withRead, heq] using hj
  refine ⟨?_, fun a b size j ha hb ↦ ?_, fun x size hx ↦ ?_, fun hclosed ↦ ?_, h.announced,
    h.stopped⟩
  · refine hone.imp_right fun hidle a b ha hb ↦ ?_
    have hself : ∀ j, (w.withRead id (.looking size)).reads j ≠ .idle → j = id := by
      intro j hj
      by_contra hne
      simp [withRead, hne, hidle] at hj
    rw [hself a ha, hself b hb]
  · exact h.one_waits a b size j (hrest a _ (by simp) ha (by simp))
      (hrest b _ (by simp) hb (by simp))
  · exact h.covered x size (hx.imp (fun hwaits ↦ hrest x _ (by simp) hwaits (by simp))
      fun ⟨hempty, hblocking⟩ ↦ ⟨hrest x _ (by simp) hempty (by simp), hblocking⟩)
  · exact absurd hclosed (by simp [withRead, hclosing])

theorem Attended.setMode {nonblocking : Bool}
    (hidle : nonblocking = true ∨ ∀ j, w.reads j = .idle) :
    Attended { w with nonblocking := nonblocking } := by
  rcases hidle with rfl | hidle
  · refine ⟨.inl rfl, h.one_waits, fun id size hid ↦ ?_, fun hclosed id hblocks ↦ ?_, h.announced,
      h.stopped⟩
    · exact h.covered id size (.inl (hid.resolve_right (by simp)))
    · exact h.closed hclosed id (.inl (hblocks.resolve_right (by simp)))
  · refine ⟨.inr fun a _ ha ↦ absurd (hidle a) ha, fun a _ size _ ha ↦ ?_, fun id size hid ↦ ?_,
      fun _ id hblocks ↦ ?_, h.announced, h.stopped⟩
    · simp [hidle a] at ha
    · simp [hidle id] at hid
    · simp [Blocks, hidle id] at hblocks

omit h in
theorem closing_of_ahead (h : w.ahead = .stopped) : w.closing = true := by
  unfold ahead at h
  split_ifs at h with hclosing
  exact hclosing

omit h in
theorem ahead_ne_announcing (w : Pipe) (ended : Bool) : w.ahead ≠ .announcing ended := by
  unfold ahead
  split_ifs <;> simp

theorem Attended.look (htop : w.reader = .top) : Attended { w with reader := w.ahead } := by
  refine { h with
    covered := fun id size hid ↦ ?_
    announced := fun hreader ↦ absurd hreader (ahead_ne_announcing w true)
    stopped := fun hreader ↦ .inr (closing_of_ahead hreader) }
  refine (h.covered id size hid).imp_right (Or.imp ?_ ?_)
  · rintro ⟨ended, hannouncing⟩
    simp [htop] at hannouncing
  · rintro ⟨hn, hended, _⟩
    refine ⟨hn, hended, fun hstopped ↦ h.closed (closing_of_ahead hstopped) id ?_⟩
    exact hid.imp (fun hwaits ↦ ⟨size, hwaits⟩) fun ⟨hempty, hblocking⟩ ↦
      ⟨ne_of_eq_of_ne hempty (by simp), hblocking⟩

theorem Attended.arrive {arrival : Arrival} (hended : w.ended = false) : Attended (w.arrive arrival) := by
  unfold Pipe.arrive
  split
  · exact
      { h with
        covered := fun _ _ _ ↦ .inr (.inl ⟨_, rfl⟩)
        announced := fun _ ↦ rfl
        stopped := fun _ ↦ .inl rfl }
  · exact
      { h with
        covered := fun _ _ _ ↦ .inr (.inl ⟨_, rfl⟩)
        announced := fun _ ↦ rfl
        stopped := fun _ ↦ .inl rfl }
  · refine
      { h with
        covered := fun _ _ _ ↦ .inr (.inl ⟨_, rfl⟩)
        announced := fun hreader ↦ ?_
        stopped := fun hreader ↦ ?_ }
    · simp [hended] at hreader
    · simp at hreader

theorem Attended.pass (hlooking : w.reads id = .looking size) (hsize : 0 < size) :
    Attended (w.pass id size) := by
  refine h.turn (by simp [hlooking]) (fun hzero ↦ ?_) (fun other hp ↦ ?_) (fun other hp ↦ ?_) (.inl rfl)
  · change w.ring.count - _ = 0
    rw [hzero, Nat.zero_sub]
  · cases hfound : w.found size <;> simp [hfound, Pass.phase] at hp
  · unfold found at hp
    split_ifs at hp with hpos hended
    · simp [Pass.phase] at hp
    · simp [Pass.phase] at hp
    · exact ⟨by omega, by simpa using hended⟩

theorem Attended.step (hstreaming : Streaming w) (hallowed : OneReader action w)
    (hstep : Step w action final) : Attended final := by
  cases hstep with
  | look htop => exact h.look htop
  | wakeRoom hfull =>
    refine { h with
      covered := fun id size hid ↦ ?_, announced := fun hreader ↦ by
        simp at hreader, stopped := fun hreader ↦ by simp at hreader }
    refine (h.covered id size hid).imp_right (Or.imp ?_ fun ⟨hn, hended, _⟩ ↦ ⟨hn, hended, by simp⟩)
    rintro ⟨ended, hannouncing⟩
    simp [hfull] at hannouncing
  | arrive hreading hgot =>
    refine h.arrive ?_
    rw [← Bool.not_eq_true]
    intro hended
    simpa [hreading] using hstreaming.flow.ended hended
  | @announce ended hannouncing =>
    refine
      { h with
        covered := fun _ _ _ ↦ .inl rfl
        announced := fun hreader ↦ ?_
        stopped := fun hreader ↦ ?_ }
    · cases ended <;> simp at hreader
    · cases ended with
      | true => exact .inl (h.announced hannouncing)
      | false => simp at hreader
  | read _ _ hclosing => exact h.read hclosing hallowed
  | @pass id size hlooking =>
    have hsize := hstreaming.sized id
    rw [hlooking] at hsize
    exact h.pass hlooking hsize
  | finish htaken =>
    exact h.turn (by simp [htaken]) id (fun _ heq ↦ by simp at heq) (fun _ heq ↦ by simp at heq) (.inl rfl)
  | refuse hempty hmode =>
    exact h.turn (by simp [hempty]) id (fun _ heq ↦ by simp at heq) (fun _ heq ↦ by simp at heq) (.inl rfl)
  | wait hempty hmode =>
    refine h.turn (by simp [hempty]) id (fun size heq ↦ ?_) (fun _ heq ↦ by simp at heq) (.inl rfl)
    rw [ReadPhase.waiting.injEq] at heq
    exact ⟨heq ▸ hempty, hmode⟩
  | wake hwaiting harrived =>
    exact h.turn (by simp [hwaiting]) id (fun _ heq ↦ by simp at heq) (fun _ heq ↦ by simp at heq)
      (.inr ⟨_, hwaiting⟩)
  | setMode => exact h.setMode hallowed
  | close hclosing => exact { h with closed := fun _ ↦ hallowed, stopped := fun _ ↦ .inr rfl }

omit h

structure Served (w : Pipe) : Prop where
  streaming : Streaming w
  attended : Attended w

/-- In every run with one Read at a time while the pipe is blocking, and no close of the last
descriptor under a Read that blocks, no Read is ever left waiting for something that is there. -/
theorem not_stranded_of_oneReader (hreach : (machine.system OneReader).Reachable w) : ¬ w.Stranded := by
  have h : Served w := by
    refine Machine.invariant ⟨streaming_initial, attended_initial⟩
      (fun action state final hallowed hstate hnext ↦ ?_) hreach
    have hstep := step_of_next hnext
    exact ⟨hstate.streaming.step hstep, hstate.attended.step hstate.streaming hallowed hstep⟩
  exact h.attended.not_stranded

theorem not_stranded_of_oneReader_waiting :
    ∃ w, (machine.system OneReader).Reachable w ∧ w.reads 0 = .waiting 1 ∧ ¬ w.Stranded := by
  have hstart : (machine.system OneReader).Reachable machine.start := .of_start rfl
  have hread := hstart.of_step ⟨.read 0 1, .inr fun _ ↦ rfl, rfl⟩
  have hwaiting := (hread.of_step ⟨.pass 0, trivial, rfl⟩).of_step ⟨.choose 0, trivial, rfl⟩
  exact ⟨_, hwaiting, rfl, not_stranded_of_oneReader hwaiting⟩

/-- Two Reads of one byte wait, and two bytes arrive at once. -/
def twoReads : List Action :=
  [.look, .read 0 1, .read 1 1, .pass 0, .pass 1, .choose 0, .choose 1, .arrive (.chunk [1, 2]),
    .announce, .wake 0, .pass 0, .finish 0]

/-- The event was set once for both: the second Read goes on waiting, with a byte in the ring. -/
theorem stranded_twoReads : ∃ w, machine.run twoReads machine.start = some w ∧ w.Stranded :=
  ⟨_, rfl, 1, 1, rfl, rfl, by decide, .inl (by decide)⟩

end Pipe

end DotnetPal.Native
