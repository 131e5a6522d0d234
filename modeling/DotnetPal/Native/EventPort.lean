import DotnetPal.Foundations.Flags
import Mathlib.Data.List.Basic

/-!
# What an event port polls for and delivers

The boundary's poll is level-triggered and the engine of managed code wants edges. A port keeps with
each registration which events it has delivered: a round looks at the registered pipes, polls the
sockets for the directions that are asked for and not delivered, and marks what the poll says. The
two functions here are the parts of a round that run under the table lock: the look at the
registrations, and the delivery of one entry of the poll.
-/

namespace DotnetPal.Native

/-! ## Events and conditions -/

variable {mask : BitVec 32}

namespace SocketEvents

def read : BitVec 32 := 1
def write : BitVec 32 := 2
def readClose : BitVec 32 := 4
def close : BitVec 32 := 8
def error : BitVec 32 := 16

/-- A hang-up is delivered as read and write, and tracked apart. -/
def hangup : BitVec 32 := 0x100

theorem and_read : mask &&& read = 0 ↔ mask.getLsbD 0 = false :=
  Flags.and_twoPow_eq_zero_iff (show 0 < 32 by decide)

theorem and_write : mask &&& write = 0 ↔ mask.getLsbD 1 = false :=
  Flags.and_twoPow_eq_zero_iff (show 1 < 32 by decide)

theorem and_error : mask &&& error = 0 ↔ mask.getLsbD 4 = false :=
  Flags.and_twoPow_eq_zero_iff (show 4 < 32 by decide)

theorem and_hangup : mask &&& hangup = 0 ↔ mask.getLsbD 8 = false :=
  Flags.and_twoPow_eq_zero_iff (show 8 < 32 by decide)

end SocketEvents

namespace Poll

def read : BitVec 32 := 1
def write : BitVec 32 := 2
def error : BitVec 32 := 4
def hangup : BitVec 32 := 8

def maxPoll : ℕ := 4096

/-- What a poll says of an entry: the directions that were requested, and error and
hang-up in any case. -/
def answer (requested condition : BitVec 32) : BitVec 32 :=
  condition &&& ((requested &&& (read ||| write)) ||| error ||| hangup)

theorem and_read : mask &&& read = 0 ↔ mask.getLsbD 0 = false :=
  Flags.and_twoPow_eq_zero_iff (show 0 < 32 by decide)

theorem and_write : mask &&& write = 0 ↔ mask.getLsbD 1 = false :=
  Flags.and_twoPow_eq_zero_iff (show 1 < 32 by decide)

theorem and_error : mask &&& error = 0 ↔ mask.getLsbD 2 = false :=
  Flags.and_twoPow_eq_zero_iff (show 2 < 32 by decide)

theorem and_hangup : mask &&& hangup = 0 ↔ mask.getLsbD 3 = false :=
  Flags.and_twoPow_eq_zero_iff (show 3 < 32 by decide)

end Poll

namespace EventPort

/-- The directions that are asked for and not delivered. -/
def wanted (events reported : BitVec 32) : BitVec 32 :=
  (if events &&& SocketEvents.read ≠ 0 ∧ reported &&& SocketEvents.read = 0 then Poll.read else 0) |||
    (if events &&& SocketEvents.write ≠ 0 ∧ reported &&& SocketEvents.write = 0 then Poll.write else 0)

/-- Nothing is left to learn about a socket. -/
def Exhausted (events reported : BitVec 32) : Prop :=
  wanted events reported = 0 ∧ reported &&& SocketEvents.error ≠ 0 ∧ reported &&& SocketEvents.hangup ≠ 0

instance (events reported : BitVec 32) : Decidable (Exhausted events reported) :=
  inferInstanceAs (Decidable (_ ∧ _))

/-- The events that what a poll says stands for. -/
def conditions (triggered : BitVec 32) : BitVec 32 :=
  (if triggered &&& Poll.read ≠ 0 then SocketEvents.read else 0) |||
    (if triggered &&& Poll.write ≠ 0 then SocketEvents.write else 0) |||
    (if triggered &&& Poll.error ≠ 0 then SocketEvents.error else 0) |||
    (if triggered &&& Poll.hangup ≠ 0 then SocketEvents.hangup else 0)

/-- What was not delivered before. -/
def news (triggered reported : BitVec 32) : BitVec 32 := conditions triggered &&& ~~~reported

/-- What managed code is told of it. A hang-up is for the read and write paths to find. -/
def told (events news : BitVec 32) : BitVec 32 :=
  (if news &&& SocketEvents.hangup ≠ 0 then
    (news &&& ~~~SocketEvents.hangup) ||| SocketEvents.read ||| SocketEvents.write else news) &&&
    (events ||| SocketEvents.error)

/-! Bits 0, 1, 4 and 8 of the events are read, write, error and hang-up, and bits 0 to 3 of a poll. -/

section Bits

variable {events r requested condition triggered : BitVec 32}

theorem wanted_eq_zero_iff : wanted events r = 0 ↔
    (events.getLsbD 0 = true → r.getLsbD 0 = true) ∧ (events.getLsbD 1 = true → r.getLsbD 1 = true) := by
  simp only [wanted, ne_eq, SocketEvents.and_read, SocketEvents.and_write, Bool.not_eq_false]
  cases events.getLsbD 0 <;> cases r.getLsbD 0 <;> cases events.getLsbD 1 <;> cases r.getLsbD 1 <;> decide

theorem getLsbD_wanted_zero : (wanted events r).getLsbD 0 = (events.getLsbD 0 && !r.getLsbD 0) := by
  simp only [wanted, ne_eq, SocketEvents.and_read, SocketEvents.and_write, Bool.not_eq_false]
  cases events.getLsbD 0 <;> cases r.getLsbD 0 <;> cases events.getLsbD 1 <;> cases r.getLsbD 1 <;> decide

theorem getLsbD_wanted_one : (wanted events r).getLsbD 1 = (events.getLsbD 1 && !r.getLsbD 1) := by
  simp only [wanted, ne_eq, SocketEvents.and_read, SocketEvents.and_write, Bool.not_eq_false]
  cases events.getLsbD 0 <;> cases r.getLsbD 0 <;> cases events.getLsbD 1 <;> cases r.getLsbD 1 <;> decide

theorem exhausted_iff : Exhausted events r ↔
    (events.getLsbD 0 = true → r.getLsbD 0 = true) ∧ (events.getLsbD 1 = true → r.getLsbD 1 = true) ∧
      r.getLsbD 4 = true ∧ r.getLsbD 8 = true := by
  rw [Exhausted, wanted_eq_zero_iff, ne_eq, SocketEvents.and_error, ne_eq, SocketEvents.and_hangup,
    Bool.not_eq_false, Bool.not_eq_false, and_assoc]

theorem getLsbD_conditions (i : ℕ) : (conditions triggered).getLsbD i =
    (decide (0 = i) && triggered.getLsbD 0 || decide (1 = i) && triggered.getLsbD 1 ||
      decide (4 = i) && triggered.getLsbD 2 || decide (8 = i) && triggered.getLsbD 3) := by
  simp only [conditions, ne_eq, Poll.and_read, Poll.and_write, Poll.and_error, Poll.and_hangup,
    Bool.not_eq_false, BitVec.getLsbD_or]
  rw [show SocketEvents.read = BitVec.twoPow 32 0 from rfl, show SocketEvents.write =
    BitVec.twoPow 32 1 from rfl,
    show SocketEvents.error = BitVec.twoPow 32 4 from rfl, show SocketEvents.hangup =
      BitVec.twoPow 32 8 from rfl]
  rw [Flags.getLsbD_ite_twoPow (by decide), Flags.getLsbD_ite_twoPow (by decide),
    Flags.getLsbD_ite_twoPow (by decide),
    Flags.getLsbD_ite_twoPow (by decide)]

theorem news_eq_zero_iff : news triggered r = 0 ↔
    (triggered.getLsbD 0 = true → r.getLsbD 0 = true) ∧ (triggered.getLsbD 1 = true → r.getLsbD 1 = true) ∧
      (triggered.getLsbD 2 = true → r.getLsbD 4 = true) ∧
        (triggered.getLsbD 3 = true → r.getLsbD 8 = true) := by
  have hbit : ∀ i, (news triggered r).getLsbD i = ((conditions triggered).getLsbD i && !r.getLsbD i) := by
    intro i
    rw [news, BitVec.getLsbD_and, BitVec.getLsbD_not, getLsbD_conditions]
    by_cases hi : i < 32
    · simp [hi]
    · simp [show ¬0 = i by omega, show ¬1 = i by omega, show ¬4 = i by omega, show ¬8 = i by omega]
  simp only [Flags.eq_zero_iff, hbit, getLsbD_conditions]
  refine ⟨fun h ↦ ⟨?_, ?_, ?_, ?_⟩, fun h i ↦ ?_⟩
  · have hread := h 0
    grind
  · have hwrite := h 1
    grind
  · have herror := h 4
    grind
  · have hhangup := h 8
    grind
  · grind

theorem getLsbD_answer (i : ℕ) : (Poll.answer requested condition).getLsbD i =
    (condition.getLsbD i &&
      (requested.getLsbD i && (decide (0 = i) || decide (1 = i)) || decide (2 = i) || decide (3 = i))) := by
  have hread : Poll.read.getLsbD i = decide (0 = i) := (BitVec.getLsbD_twoPow 0 i).trans (by simp)
  have hwrite : Poll.write.getLsbD i = decide (1 = i) := (BitVec.getLsbD_twoPow 1 i).trans (by simp)
  have herror : Poll.error.getLsbD i = decide (2 = i) := (BitVec.getLsbD_twoPow 2 i).trans (by simp)
  have hhangup : Poll.hangup.getLsbD i = decide (3 = i) := (BitVec.getLsbD_twoPow 3 i).trans (by simp)
  simp only [Poll.answer, BitVec.getLsbD_and, BitVec.getLsbD_or, hread, hwrite, herror, hhangup]

theorem answer_eq_zero_iff : Poll.answer requested condition = 0 ↔
    (condition.getLsbD 0 = true → requested.getLsbD 0 = false) ∧
      (condition.getLsbD 1 = true → requested.getLsbD 1 = false) ∧
      condition.getLsbD 2 = false ∧ condition.getLsbD 3 = false := by
  simp only [Flags.eq_zero_iff, getLsbD_answer]
  refine ⟨fun h ↦ ⟨?_, ?_, ?_, ?_⟩, fun h i ↦ ?_⟩
  · have hread := h 0
    grind
  · have hwrite := h 1
    grind
  · have herror := h 2
    grind
  · have hhangup := h 3
    grind
  · grind

end Bits

/-- What stands behind a registration: a socket, or an end of a pipe to a child. -/
inductive Source
  | socket (condition : BitVec 32)
  | reader (readable : Bool)
  | writer
  deriving DecidableEq

/-- What a pipe is ready for. Its write end always takes data. -/
def Source.ready : Source → BitVec 32
  | .writer => SocketEvents.write
  | .reader true => SocketEvents.read
  | _ => 0

structure Registration where
  object : ℕ
  source : Source
  data : ℕ
  events : BitVec 32
  reported : BitVec 32
  deriving DecidableEq

structure Event where
  data : ℕ
  events : BitVec 32
  deriving DecidableEq

namespace Registration

/-- What a pipe is newly ready for. -/
def fresh (reg : Registration) : BitVec 32 :=
  reg.source.ready &&& reg.events &&& ~~~reg.reported

def marked (events : BitVec 32) (reg : Registration) : Registration :=
  { reg with reported := reg.reported ||| events }

end Registration

/-- A registration after the look at it, and what it is polled for. -/
structure Scanned where
  registration : Registration
  requested : Option (BitVec 32)
  deriving DecidableEq

/-- The look at one registration: a pipe is delivered where there is room, a socket is polled unless
it is exhausted. -/
def lookAt (room : ℕ) (events : List Event) (reg : Registration) : Scanned × List Event :=
  match reg.source with
  | .socket _ =>
    if Exhausted reg.events reg.reported then (⟨reg, none⟩, events)
    else (⟨reg, some (wanted reg.events reg.reported)⟩, events)
  | _ =>
    if reg.fresh ≠ 0 ∧ events.length < room then
      (⟨reg.marked reg.fresh, none⟩, events ++ [⟨reg.data, reg.fresh⟩])
    else (⟨reg, none⟩, events)

/-- The look at all registrations, up to where the snapshot is full. -/
def scan (limit room : ℕ) : ℕ → List Event → List Registration → List Scanned × List Event
  | _, events, [] => ([], events)
  | polled, events, reg :: rest =>
    if polled < limit then
      let first := lookAt room events reg
      let later := scan limit room (if first.1.requested.isSome then polled + 1 else polled) first.2 rest
      (first.1 :: later.1, later.2)
    else ((reg :: rest).map (⟨·, none⟩), events)

/-- The delivery of one entry, while there is room. -/
def deliver (room : ℕ) (triggered : BitVec 32) (events : List Event) (reg : Registration) :
    Registration × List Event :=
  if triggered ≠ 0 ∧ events.length < room then
    let news := news triggered reg.reported
    let told := told reg.events news
    (reg.marked news, if told ≠ 0 then events ++ [⟨reg.data, told⟩] else events)
  else (reg, events)

/-- The room of a snapshot. -/
def reserve (capacity registered : ℕ) : ℕ :=
  if min registered Poll.maxPoll ≤ capacity then capacity else min registered Poll.maxPoll + 16

end EventPort

end DotnetPal.Native
