import DotnetPal.Foundations.LinkedQueue
import DotnetPal.Foundations.Machines
import Mathlib.Data.List.Perm.Subperm

/-!
# LowLevelMonitor

A monitor is a mutex and a queue of waiting threads. A wait puts a record of its own behind the
others, lets the mutex go and sleeps on the thread's event, which all waits of the thread share; a
signal takes the first record off the queue, marks it and sets the event of its thread. A sleep that
times out may be signaled before the thread has the mutex again.

Mutexes exclude and an event releases one sleep for each time it is set: both are the boundary's. A
step is what a thread does from one point where another may come in to the next.
-/

open List Option Function

namespace DotnetPal.Native

open Programs LinkedQueue

/-- What the boundary answers to a sleep. -/
inductive Sleep
  | ok
  | timeout
  | failed
  deriving DecidableEq

/-- What a thread is doing. -/
inductive Phase
  /-- Outside a wait. -/
  | running
  /-- In `thread_event`, with a slot for the threads' events it made since it saw none. -/
  | racing (monitor slot : ℕ)
  /-- In the queue of a monitor or signaled, before the end of the sleep. -/
  | asleep (monitor : ℕ)
  /-- In the queue of a monitor or signaled, after it. -/
  | awake (monitor : ℕ) (status : Sleep)
  deriving DecidableEq

/-- The monitor in whose queue a wait put itself. -/
def Phase.monitor? : Phase → Option ℕ
  | .asleep m | .awake m _ => some m
  | _ => none

/-- A thread, with the record of the wait it is in. -/
structure Thread where
  phase : Phase
  event : ℕ
  signaled : Bool
  /-- What its last wait returned. -/
  result : Option Bool
  /-- How many signals chose the wait it is in, and when the wait entered the queue. -/
  chosen : ℕ
  ticket : ℕ

namespace Thread

/-- The monitor whose queue has the record. -/
def queuedOn? (t : Thread) : Option ℕ := if t.signaled then none else t.phase.monitor?

/-- A signal was sent that no sleep has taken. -/
def due (t : Thread) : Bool :=
  match t.phase with
  | .asleep _ => t.signaled
  | .awake _ status => t.signaled && decide (status ≠ .ok)
  | _ => false

def initial : Thread := ⟨.running, 0, false, none, 0, 0⟩

def raced (m slot : ℕ) (t : Thread) : Thread := { t with phase := .racing m slot }

def queued (m event clock : ℕ) (t : Thread) : Thread :=
  { t with phase := .asleep m, event := event, signaled := false, chosen := 0, ticket := clock }

def woken (m : ℕ) (status : Sleep) (t : Thread) : Thread := { t with phase := .awake m status }

def marked (t : Thread) : Thread := { t with signaled := true, chosen := t.chosen + 1 }

def returned (result : Bool) (t : Thread) : Thread := { t with phase := .running, result := some result }

@[simp]
theorem queued_queuedOn? (m e clock : ℕ) (t : Thread) :
    (t.queued m e clock).queuedOn? = some m := rfl

@[simp]
theorem marked_queuedOn? (t : Thread) : t.marked.queuedOn? = none := rfl

@[simp]
theorem returned_queuedOn? (result : Bool) (t : Thread) : (t.returned result).queuedOn? = none :=
  ite_self none

@[simp]
theorem raced_queuedOn? (m slot : ℕ) (t : Thread) : (t.raced m slot).queuedOn? = none := ite_self none

variable {t : Thread}

theorem queuedOn?_of_running (h : t.phase.monitor? = none) : t.queuedOn? = none := by
  simp [queuedOn?, h]

theorem queuedOn?_of_signaled (h : t.signaled = true) : t.queuedOn? = none := if_pos h

theorem woken_queuedOn? {m : ℕ} {status : Sleep} (h : t.phase.monitor? = some m) :
    (t.woken m status).queuedOn? = t.queuedOn? := by
  rw [queuedOn?, queuedOn?, h]
  rfl

theorem due_of_running (h : t.phase.monitor? = none) : t.due = false := by
  unfold due
  cases hp : t.phase with
  | running | racing => rfl
  | asleep | awake => simp [Phase.monitor?, hp] at h

end Thread

structure LowLevelMonitor where
  /-- The thread that has the mutex. -/
  owner : Option ℕ
  queue : Queue ℕ

structure Monitors where
  monitors : ℕ → LowLevelMonitor
  threads : ℕ → Thread
  /-- The record behind a thread's own. -/
  link : ℕ → Option ℕ
  /-- `waiter_slot`, and what each slot has for each thread. -/
  slot : Option ℕ
  stored : ℕ → ℕ → Option ℕ
  /-- The events that are set. -/
  raised : ℕ → Bool
  freshSlot : ℕ
  freshEvent : ℕ
  clock : ℕ

namespace Monitors

def withOwner (m : ℕ) (owner : Option ℕ) (w : Monitors) : Monitors :=
  { w with monitors := update w.monitors m { w.monitors m with owner := owner } }

def withQueue (m : ℕ) (queue : Queue ℕ) (w : Monitors) : Monitors :=
  { w with monitors := update w.monitors m { w.monitors m with queue := queue } }

def modifyThread (id : ℕ) (change : Thread → Thread) (w : Monitors) : Monitors :=
  { w with threads := update w.threads id (change (w.threads id)) }

def setEvent (event : ℕ) (raised : Bool) (w : Monitors) : Monitors :=
  { w with raised := update w.raised event raised }

/-- The thread has the monitor and is outside a wait. -/
def Holds (w : Monitors) (id m : ℕ) : Prop :=
  (w.threads id).phase = .running ∧ (w.monitors m).owner = some id

instance (w : Monitors) (id m : ℕ) : Decidable (w.Holds id m) :=
  inferInstanceAs (Decidable (_ ∧ _))

/-- The end of `thread_event`: the thread's event in the slot, made on its first wait. -/
def threadEvent (id slot : ℕ) (w : Monitors) : ℕ × Monitors :=
  match w.stored slot id with
  | some event => (event, w)
  | none =>
    (w.freshEvent,
      { w.setEvent w.freshEvent false with
        stored := update w.stored slot (update (w.stored slot) id (some w.freshEvent))
        freshEvent := w.freshEvent + 1 })

/-- A new record behind the others. -/
def append (id m event : ℕ) (w : Monitors) : Monitors :=
  let queue := (w.monitors m).queue
  { w.modifyThread id (Thread.queued m event w.clock) with
    link := linkLast w.link queue id
    clock := w.clock + 1 }.withQueue m (queue.push id)

/-- The first part of a wait, from the thread's event to the mutex let go. -/
def enqueue (id m slot : ℕ) (w : Monitors) : Monitors :=
  let (event, w) := threadEvent id slot { w with slot := some slot }
  (w.append id m event).withOwner m none

/-- The record out of the middle of the queue. -/
def remove (count id m : ℕ) (w : Monitors) : Monitors :=
  let (link, queue) := unlink count w.link (w.monitors m).queue id
  { w with link := link }.withQueue m queue

/-- The last part of a wait. A sleep that ended by itself leaves a signal's event to be taken; where
no signal came the record is still in the queue, and a sleep that failed stops the process. -/
def leave (count id m : ℕ) (status : Sleep) (w : Monitors) : Option Monitors :=
  if (w.threads id).signaled then
    let w := if status = .ok then w else w.setEvent (w.threads id).event false
    some (w.modifyThread id (Thread.returned true))
  else if status = .failed then none
  else some ((w.remove count id m).modifyThread id (Thread.returned false))

/-- Takes the oldest record off the queue, marks it and sets its event. -/
def signal (m : ℕ) (w : Monitors) : Monitors :=
  match (w.monitors m).queue.pop w.link with
  | none => w
  | some (id, queue) =>
    ((w.withQueue m queue).modifyThread id Thread.marked).setEvent (w.threads id).event true

inductive Action
  | acquire (id monitor : ℕ)
  | release (id monitor : ℕ)
  | wait (id monitor : ℕ)
  /-- The exchange that publishes the slot a thread made, unless another was first. -/
  | race (id : ℕ)
  | wake (id : ℕ)
  | timeOut (id : ℕ)
  | fail (id : ℕ)
  | reenter (id : ℕ)
  | signalRelease (id monitor : ℕ)

/-- The end of a sleep. -/
def endSleep (id : ℕ) (status : Sleep) (w : Monitors) : Option Monitors :=
  match (w.threads id).phase with
  | .asleep m => some (w.modifyThread id (Thread.woken m status))
  | _ => none

def next (count : ℕ) : Action → Monitors → Option Monitors
  | .acquire id m, w =>
    if id < count ∧ (w.threads id).phase = .running ∧ (w.monitors m).owner = none then
      some (w.withOwner m (some id))
    else none
  | .release id m, w =>
    if w.Holds id m then some (w.withOwner m none) else none
  | .wait id m, w =>
    if id < count ∧ w.Holds id m then
      match w.slot with
      | some slot => some (w.enqueue id m slot)
      | none =>
        some { w.modifyThread id (Thread.raced m w.freshSlot) with freshSlot := w.freshSlot + 1 }
    else none
  | .race id, w =>
    match (w.threads id).phase with
    | .racing m created =>
      if id < count then some (w.enqueue id m (w.slot.getD created)) else none
    | _ => none
  | .wake id, w =>
    -- An automatic event is unset by the sleep it ends.
    if w.raised (w.threads id).event then
      (w.setEvent (w.threads id).event false).endSleep id .ok
    else none
  | .timeOut id, w => w.endSleep id .timeout
  | .fail id, w => w.endSleep id .failed
  | .reenter id, w =>
    match (w.threads id).phase with
    | .awake m status =>
      if (w.monitors m).owner = none then
        (w.leave count id m status).map (withOwner m (some id))
      else none
    | _ => none
  | .signalRelease id m, w =>
    if w.Holds id m then some ((w.signal m).withOwner m none) else none

def initial : Monitors where
  monitors _ := ⟨none, ⟨none, none⟩⟩
  threads _ := .initial
  link _ := none
  slot := none
  stored _ _ := none
  raised _ := false
  freshSlot := 0
  freshEvent := 0
  clock := 0

/-- Any number of threads. -/
def machine (count : ℕ) : Machine Monitors Action := ⟨initial, next count⟩

/-! ## Queues -/

/-- The threads in the queue of a monitor, oldest first. -/
structure Line (count : ℕ) (w : Monitors) (m : ℕ) (items : List ℕ) : Prop where
  represents : Represents w.link (w.monitors m).queue items
  mem_iff : ∀ id, id ∈ items ↔ (w.threads id).queuedOn? = some m
  ordered : items.Pairwise fun first second ↦ (w.threads first).ticket < (w.threads second).ticket
  counted : ∀ id ∈ items, id < count
  early : ∀ id ∈ items, (w.threads id).ticket < w.clock

def Lined (count : ℕ) (w : Monitors) : Prop := ∀ m, ∃ items, Line count w m items

variable {n : ℕ} {w w' : Monitors} {m u id slot e : ℕ} {items : List ℕ} {t : Thread}

variable (h : Line n w m items)
include h

theorem Line.length_le : items.length ≤ n := by
  have hsubset : items ⊆ range n := fun id hid ↦ mem_range.mpr (h.counted id hid)
  simpa using (subperm_of_subset h.represents.nodup hsubset).length_le

/-- A change that leaves the queue, its records and who is in it as they are. -/
theorem Line.congr (hqueue : (w'.monitors m).queue = (w.monitors m).queue)
    (hlink : ∀ id ∈ items, w'.link id = w.link id)
    (hmem : ∀ id, (w'.threads id).queuedOn? = some m ↔ (w.threads id).queuedOn? = some m)
    (hticket : ∀ id ∈ items, (w'.threads id).ticket = (w.threads id).ticket)
    (hclock : w.clock ≤ w'.clock) : Line n w' m items where
  represents := by
    rw [hqueue]
    exact h.represents.congr hlink
  mem_iff id := by rw [h.mem_iff, hmem]
  ordered := by
    refine h.ordered.imp_of_mem fun ha hb hlt ↦ ?_
    rwa [hticket _ ha, hticket _ hb]
  counted := h.counted
  early id hid := by
    rw [hticket id hid]
    exact (h.early id hid).trans_le hclock

omit h in
/-- A thread is in one queue. -/
theorem Line.not_mem (h : Line n w u items) (hid : (w.threads id).queuedOn? = some m)
    (hne : u ≠ m) : id ∉ items := by
  rw [h.mem_iff, hid]
  exact fun heq ↦ hne (some.inj heq).symm

theorem Line.append (hid : (w.threads id).queuedOn? = none)
    (hn : id < n) : Line n (w.append id m e) m (items ++ [id]) := by
  have hnew : id ∉ items := by simp [h.mem_iff, hid]
  have hne : ∀ x ∈ items, x ≠ id := fun x hx heq ↦ hnew (heq ▸ hx)
  refine ⟨?_, fun x ↦ ?_, ?_, fun x hx ↦ ?_, fun x hx ↦ ?_⟩
  · simpa [Monitors.append, withQueue] using h.represents.push hnew
  · by_cases hx : x = id
    · subst hx
      simp [Monitors.append, withQueue, modifyThread]
    · simp [Monitors.append, withQueue, modifyThread, hx, h.mem_iff]
  · refine pairwise_append.mpr ⟨?_, pairwise_singleton _ _, fun a ha b hb ↦ ?_⟩
    · refine h.ordered.imp_of_mem fun ha hb hlt ↦ ?_
      simpa [Monitors.append, withQueue, modifyThread, hne _ ha, hne _ hb] using hlt
    · rw [mem_singleton.mp hb]
      simpa [Monitors.append, withQueue, modifyThread, hne _ ha, Thread.queued] using h.early a ha
  · rcases mem_append.mp hx with hold | hlast
    · exact h.counted x hold
    · rwa [mem_singleton.mp hlast]
  · rcases mem_append.mp hx with hold | hlast
    · have hearly := h.early x hold
      simp only [Monitors.append, withQueue, modifyThread, update_of_ne (hne _ hold)]
      omega
    · simp [Monitors.append, withQueue, modifyThread, mem_singleton.mp hlast, Thread.queued]

/-- A thread leaves the queue. -/
theorem Line.shrink {rest : List ℕ} (hsub : rest.Sublist items) (hrest : ∀ x, x ∈ rest ↔ x ∈ items ∧ x ≠ id)
    (hthreads : w'.threads = update w.threads id t) (hthread : t.queuedOn? = none)
    (hrepresents : Represents w'.link (w'.monitors m).queue rest) (hclock : w'.clock = w.clock) :
    Line n w' m rest := by
  have hsame : ∀ x ∈ rest, w'.threads x = w.threads x := fun x hx ↦ by
    rw [hthreads, update_of_ne ((hrest x).mp hx).2]
  refine ⟨hrepresents, fun x ↦ ?_, ?_, fun x hx ↦ h.counted x (hsub.subset hx), fun x hx ↦ ?_⟩
  · rw [hrest, h.mem_iff, hthreads]
    by_cases hx : x = id
    · subst hx
      simp [hthread]
    · simp [hx]
  · refine (h.ordered.sublist hsub).imp_of_mem fun ha hb hlt ↦ ?_
    rwa [hsame _ ha, hsame _ hb]
  · rw [hsame x hx, hclock]
    exact h.early x (hsub.subset hx)

omit h

/-- The oldest record is taken off and marked. -/
theorem Line.signal (h : Line n w m (id :: items)) : ∃ queue, w.signal m =
        ((w.withQueue m queue).modifyThread id Thread.marked).setEvent (w.threads id).event true ∧
      Line n (w.signal m) m items := by
  obtain ⟨queue, hpop, hrest⟩ := h.represents.pop_cons
  have heq : w.signal m =
      ((w.withQueue m queue).modifyThread id Thread.marked).setEvent (w.threads id).event true := by
    simp only [Monitors.signal, hpop]
  have hid : id ∉ items := (nodup_cons.mp h.represents.nodup).1
  refine ⟨queue, heq, heq ▸ h.shrink (sublist_cons_self id items) (fun x ↦ ?_) rfl
    (Thread.marked_queuedOn? _) ?_ rfl⟩
  · rw [mem_cons, or_and_right, and_not_self_iff, false_or]
    exact ⟨fun hx ↦ ⟨hx, fun hsame ↦ hid (hsame ▸ hx)⟩, And.left⟩
  · simpa [setEvent, modifyThread, withQueue] using hrest

theorem Line.signal_nil (h : Line n w m []) : w.signal m = w := by
  simp only [Monitors.signal, h.represents.pop_nil]

/-- A wait that was not signaled finds its record and takes it out. -/
theorem Line.remove {front back : List ℕ} (h : Line n w m (front ++ id :: back)) :
    Line n ((w.remove n id m).modifyThread id (Thread.returned false)) m (front ++ back) := by
  have hlen := h.length_le
  rw [length_append, length_cons] at hlen
  have hfuel : front.length < n := by omega
  obtain ⟨_, hidBack, hapart⟩ := nodup_append.mp h.represents.nodup
  have hid : id ∉ front ++ back := by
    rw [mem_append]
    rintro (hfront | hback)
    · exact hapart id hfront id mem_cons_self rfl
    · exact (nodup_cons.mp hidBack).1 hback
  refine h.shrink ((sublist_cons_self id back).append_left front) (fun x ↦ ?_) rfl
    (Thread.returned_queuedOn? _ _) ?_ rfl
  · constructor
    · exact fun hx ↦ ⟨by simp only [mem_append, mem_cons] at hx ⊢; tauto, fun hsame ↦ hid (hsame ▸ hx)⟩
    · rintro ⟨hx, hne⟩
      simpa [hne] using hx
  · simpa [Monitors.remove, modifyThread, withQueue] using h.represents.unlink hfuel

/-- A step that touches no queue, no link, and no thread's place. -/
theorem Lined.congr (h : Lined n w) (hqueue : ∀ m, (w'.monitors m).queue = (w.monitors m).queue)
    (hlink : w'.link = w.link)
    (hthreads : ∀ id, (w'.threads id).queuedOn? = (w.threads id).queuedOn? ∧
      ((w.threads id).queuedOn? ≠ none → (w'.threads id).ticket = (w.threads id).ticket))
    (hclock : w'.clock = w.clock) : Lined n w' := by
  intro m
  obtain ⟨items, hline⟩ := h m
  refine ⟨items, hline.congr (hqueue m) (fun id _ ↦ by rw [hlink]) (fun id ↦ by rw [(hthreads id).1])
    (fun id hid ↦ (hthreads id).2 ?_) hclock.ge⟩
  rw [(hline.mem_iff id).mp hid]
  exact some_ne_none m

/-- One thread enters or leaves the queue of one monitor. -/
theorem Lined.one (h : Lined n w) (hthreads : w'.threads = update w.threads id t)
    (hold : ∀ u, (w.threads id).queuedOn? = some u → u = m)
    (hnew : ∀ u, t.queuedOn? = some u → u = m)
    (hqueue : ∀ u, u ≠ m → (w'.monitors u).queue = (w.monitors u).queue)
    (hlink : ∀ x u, (w.threads x).queuedOn? = some u → u ≠ m → w'.link x = w.link x)
    (hclock : w.clock ≤ w'.clock) (hline : Line n w' m items) : Lined n w' := by
  intro u
  by_cases hj : u = m
  · subst hj
    exact ⟨items, hline⟩
  obtain ⟨others, hothers⟩ := h u
  have hne : ∀ x ∈ others, x ≠ id := by
    rintro x hx rfl
    exact hj (hold u ((hothers.mem_iff x).mp hx))
  refine ⟨others, hothers.congr (hqueue u hj)
    (fun x hx ↦ hlink x u ((hothers.mem_iff x).mp hx) hj) (fun x ↦ ?_)
    (fun x hx ↦ by rw [hthreads, update_of_ne (hne x hx)]) hclock⟩
  rw [hthreads]
  by_cases hx : x = id
  · subst hx
    rw [update_self]
    exact ⟨fun hin ↦ absurd (hnew u hin) hj, fun hin ↦ absurd (hold u hin) hj⟩
  · rw [update_of_ne hx]

theorem Lined.append (h : Lined n w) (hid : (w.threads id).queuedOn? = none) (hn : id < n) :
    Lined n (w.append id m e) := by
  obtain ⟨mine, hmine⟩ := h m
  refine h.one rfl (fun u hj ↦ by simp [hid] at hj) (fun u hj ↦ (some.inj hj).symm)
    (fun u hj ↦ ?_) (fun x u hx hj ↦ ?_) (Nat.le_succ _) (hmine.append hid hn)
  · simp [Monitors.append, modifyThread, withQueue, hj]
  · have hne : x ≠ id := by
      rintro rfl
      simp [hid] at hx
    simpa [Monitors.append, withQueue] using linkLast_of_not_mem hmine.represents hne
      (hmine.not_mem hx (Ne.symm hj))

theorem Lined.signal (h : Lined n w) : Lined n (w.signal m) := by
  obtain ⟨mine, hmine⟩ := h m
  cases mine with
  | nil => rwa [hmine.signal_nil]
  | cons id rest =>
    obtain ⟨queue, heq, hrest⟩ := hmine.signal
    have hid : (w.threads id).queuedOn? = some m := (hmine.mem_iff id).mp mem_cons_self
    rw [heq] at hrest ⊢
    refine h.one rfl (fun u hj ↦ (some.inj (hid.symm.trans hj)).symm) (fun u hj ↦ by cases hj)
      (fun u hj ↦ ?_) (fun _ _ _ _ ↦ rfl) le_rfl hrest
    simp [setEvent, modifyThread, withQueue, hj]

theorem Lined.remove (h : Lined n w) (hid : (w.threads id).queuedOn? = some m) :
    Lined n ((w.remove n id m).modifyThread id (Thread.returned false)) := by
  obtain ⟨mine, hmine⟩ := h m
  obtain ⟨front, back, rfl⟩ := append_of_mem ((hmine.mem_iff id).mpr hid)
  have hlen := hmine.length_le
  rw [length_append, length_cons] at hlen
  refine h.one rfl (fun u hj ↦ (some.inj (hid.symm.trans hj)).symm) (fun u hj ↦ ?_)
    (fun u hj ↦ ?_) (fun x u hx hj ↦ ?_) le_rfl hmine.remove
  · rw [Thread.returned_queuedOn?] at hj
    cases hj
  · simp [Monitors.remove, modifyThread, withQueue, hj]
  · exact unlink_of_not_mem hmine.represents (by omega) (hmine.not_mem hx (Ne.symm hj))

/-! ## Events -/

/-- The event `thread_event` gives a thread that has waited before. -/
def eventOf? (w : Monitors) (id : ℕ) : Option ℕ := w.slot.bind fun slot ↦ w.stored slot id

/-- What holds of a thread whose event is `own`. -/
structure Steady (raised : ℕ → Bool) (own : Option ℕ) (t : Thread) : Prop where
  owns : t.phase.monitor? ≠ none → own = some t.event
  chosen : t.phase.monitor? ≠ none → t.chosen = t.signaled.toNat
  released : ∀ m, t.phase = .awake m .ok → t.signaled
  raised_eq : ∀ event, own = some event → raised event = t.due

/-- Every thread has an event of its own. -/
structure Calm (w : Monitors) : Prop where
  one_slot : ∀ slot id event, w.stored slot id = some event → w.slot = some slot
  fresh : ∀ id event, w.eventOf? id = some event → event < w.freshEvent
  own : ∀ first second event, w.eventOf? first = some event → w.eventOf? second = some event → first = second
  steady : ∀ id, Steady w.raised (w.eventOf? id) (w.threads id)

variable {raised : ℕ → Bool}

/-- A step that changes one thread, and no event but its own. -/
theorem Calm.update (h : Calm w) (t : Thread) (hthread : Steady raised (w.eventOf? id) t)
    (hraised : ∀ e, w.eventOf? id ≠ some e → raised e = w.raised e) :
    Calm { w with threads := update w.threads id t, raised := raised } := by
  refine { h with steady := fun u ↦ ?_ }
  dsimp only
  by_cases hj : u = id
  · subst hj
    rwa [update_self]
  · rw [update_of_ne hj]
    have hsteady := h.steady u
    refine { hsteady with raised_eq := fun e hown ↦ ?_ }
    rw [hraised e fun hid ↦ hj (h.own u id e hown hid)]
    exact hsteady.raised_eq e hown

/-- The slot a thread goes on with is the one that is published, or becomes it. -/
theorem Calm.publish (h : Calm w) (hslot : w.slot = none ∨ w.slot = some slot) :
    Calm { w with slot := some slot } := by
  rcases hslot with hnone | hsome
  · have hstored : ∀ slot id, w.stored slot id = none := by
      intro slot id
      rw [eq_none_iff_forall_ne_some]
      intro e hevent
      simpa [hnone] using h.one_slot slot id e hevent
    refine ⟨fun _ id e hevent ↦ ?_, fun id e hevent ↦ ?_, fun id _ e hevent ↦ ?_, fun id ↦ ?_⟩
    · simp [hstored] at hevent
    · simp [eventOf?, hstored] at hevent
    · simp [eventOf?, hstored] at hevent
    · have hsteady := h.steady id
      rw [show w.eventOf? id = none by simp [eventOf?, hnone]] at hsteady
      rwa [show eventOf? { w with slot := some slot } id = none by simp [eventOf?, hstored]]
  · rwa [show ({ w with slot := some slot } : Monitors) = w by rw [← hsome]]

/-- A thread gets the event it had, or a new one that is unset. -/
theorem Calm.threadEvent (h : Calm w) (hslot : w.slot = some slot)
    (hid : (w.threads id).phase.monitor? = none) :
    Calm (w.threadEvent id slot).2 ∧ (w.threadEvent id slot).2.eventOf? id =
      some (w.threadEvent id slot).1 := by
  cases hstored : w.stored slot id with
  | some e =>
    rw [show w.threadEvent id slot = (e, w) by simp [Monitors.threadEvent, hstored]]
    exact ⟨h, by simp [eventOf?, hslot, hstored]⟩
  | none =>
    simp only [Monitors.threadEvent, hstored]
    set w' : Monitors := { w.setEvent w.freshEvent false with
      stored := Function.update w.stored slot (Function.update (w.stored slot) id (some w.freshEvent))
      freshEvent := w.freshEvent + 1 } with hfinal
    have hown : w'.eventOf? id = some w.freshEvent := by simp [hfinal, eventOf?, setEvent, hslot]
    have hj : ∀ u, u ≠ id → w'.eventOf? u = w.eventOf? u := fun u hj ↦ by
      simp [hfinal, eventOf?, setEvent, hslot, hj]
    have hlt : ∀ u e, u ≠ id → w'.eventOf? u = some e → e < w.freshEvent :=
      fun u e hne hevent ↦ h.fresh u e ((hj u hne).symm.trans hevent)
    refine ⟨⟨fun x u e hevent ↦ ?_, fun u e hevent ↦ ?_, fun a b e ha hb ↦ ?_, fun u ↦ ?_⟩, hown⟩
    · by_cases hx : x = slot
      · rw [hx]
        exact hslot
      · rw [hfinal] at hevent
        simp only [Function.update_of_ne hx] at hevent
        exact h.one_slot x u e hevent
    · change e < w.freshEvent + 1
      by_cases hne : u = id
      · rw [hne, hown] at hevent
        exact Nat.lt_succ_of_le (some.inj hevent).ge
      · exact Nat.lt_succ_of_lt (hlt u e hne hevent)
    · by_cases hone : a = id <;> by_cases htwo : b = id
      · rw [hone, htwo]
      · rw [hone, hown] at ha
        exact absurd (hlt b e htwo hb) (some.inj ha).not_gt
      · rw [htwo, hown] at hb
        exact absurd (hlt a e hone ha) (some.inj hb).not_gt
      · exact h.own a b e ((hj a hone).symm.trans ha) ((hj b htwo).symm.trans hb)
    · have hsteady := h.steady u
      by_cases hne : u = id
      · subst hne
        refine ⟨fun hp ↦ absurd hid hp, hsteady.chosen, hsteady.released, fun e hevent ↦ ?_⟩
        rw [hown] at hevent
        have hunset : w'.raised e = false := by simp [hfinal, setEvent, ← some.inj hevent]
        rw [hunset]
        exact (Thread.due_of_running hid).symm
      · rw [hj u hne]
        refine ⟨hsteady.owns, hsteady.chosen, hsteady.released, fun e hevent ↦ ?_⟩
        have hold : e ≠ w.freshEvent := (h.fresh u e hevent).ne
        have hkept : w'.raised e = w.raised e := by simp [hfinal, setEvent, hold]
        rw [hkept]
        exact hsteady.raised_eq e hevent

/-! ## Steps -/

/-- What a step does. -/
inductive Step (count : ℕ) (w : Monitors) : Action → Monitors → Prop
  | acquire {id m : ℕ} : Step count w (.acquire id m) (w.withOwner m (some id))
  | release {id m : ℕ} : Step count w (.release id m) (w.withOwner m none)
  | raced {id m : ℕ} : (w.threads id).phase = .running →
      Step count w (.wait id m)
        { w.modifyThread id (Thread.raced m w.freshSlot) with freshSlot := w.freshSlot + 1 }
  | enqueue {action : Action} {id m slot : ℕ} : (action = .wait id m ∨ action = .race id) → id < count →
      (w.threads id).phase.monitor? = none → (w.slot = none ∨ w.slot = some slot) →
        Step count w action (w.enqueue id m slot)
  | wake {id m : ℕ} : (w.threads id).phase = .asleep m → w.raised (w.threads id).event →
      Step count w (.wake id)
        ((w.setEvent (w.threads id).event false).modifyThread id (Thread.woken m .ok))
  | sleepless {action : Action} {id m : ℕ} {status : Sleep} : (action = .timeOut id ∨ action = .fail id) →
      (w.threads id).phase = .asleep m → status ≠ .ok →
      Step count w action (w.modifyThread id (Thread.woken m status))
  | leaveOk {id m : ℕ} : (w.threads id).phase = .awake m .ok → (w.threads id).signaled = true →
      Step count w (.reenter id) ((w.modifyThread id (Thread.returned true)).withOwner m (some id))
  | leaveLate {id m : ℕ} {status : Sleep} : (w.threads id).phase = .awake m status → status ≠ .ok →
      (w.threads id).signaled = true →
      Step count w (.reenter id) (((w.setEvent (w.threads id).event false).modifyThread id
        (Thread.returned true)).withOwner m (some id))
  | leaveQueued {id m : ℕ} {status : Sleep} : (w.threads id).phase = .awake m status →
      (w.threads id).signaled = false →
      Step count w (.reenter id)
        (((w.remove count id m).modifyThread id (Thread.returned false)).withOwner m (some id))
  | signal {id m : ℕ} : Step count w (.signalRelease id m) ((w.signal m).withOwner m none)

theorem endSleep_eq_some {status : Sleep} (h : w.endSleep id status = some w') :
    ∃ m, (w.threads id).phase = .asleep m ∧ w' = w.modifyThread id (Thread.woken m status) := by
  unfold endSleep at h
  cases hp : (w.threads id).phase with
  | asleep m => exact ⟨m, rfl, by simpa [hp] using h.symm⟩
  | running | racing | awake => simp [hp] at h

variable {action : Action}

theorem step_of_next (h : next n action w = some w') : Step n w action w' := by
  cases action with
  | acquire id m =>
    obtain ⟨_, ⟨⟩⟩ := ite_none_right_eq_some.mp h
    exact .acquire
  | release id m =>
    obtain ⟨_, ⟨⟩⟩ := ite_none_right_eq_some.mp h
    exact .release
  | wait id m =>
    obtain ⟨⟨hn, hholds⟩, h⟩ := ite_none_right_eq_some.mp h
    cases hslot : w.slot with
    | none =>
      simp only [hslot, some.injEq] at h
      exact h ▸ .raced hholds.1
    | some slot =>
      simp only [hslot, some.injEq] at h
      exact h ▸ .enqueue (.inl rfl) hn (by simp [hholds.1, Phase.monitor?]) (.inr hslot)
  | race id =>
    cases hp : (w.threads id).phase with
    | racing m created =>
      simp only [next, hp] at h
      obtain ⟨hn, ⟨⟩⟩ := ite_none_right_eq_some.mp h
      refine .enqueue (.inr rfl) hn (by simp [hp, Phase.monitor?]) ?_
      cases w.slot with
      | none => exact .inl rfl
      | some slot => exact .inr rfl
    | running | asleep | awake => simp [next, hp] at h
  | wake id =>
    obtain ⟨hraised, h⟩ := ite_none_right_eq_some.mp h
    obtain ⟨m, hp, rfl⟩ := endSleep_eq_some h
    exact .wake hp hraised
  | timeOut id =>
    obtain ⟨m, hp, rfl⟩ := endSleep_eq_some h
    exact .sleepless (.inl rfl) hp (by decide)
  | fail id =>
    obtain ⟨m, hp, rfl⟩ := endSleep_eq_some h
    exact .sleepless (.inr rfl) hp (by decide)
  | reenter id =>
    cases hp : (w.threads id).phase with
    | awake m status =>
      simp only [next, hp] at h
      obtain ⟨_, h⟩ := ite_none_right_eq_some.mp h
      obtain ⟨left, hleft, rfl⟩ := map_eq_some_iff.mp h
      unfold leave at hleft
      cases hsignaled : (w.threads id).signaled with
      | false =>
        rw [if_neg (by simp [hsignaled])] at hleft
        obtain ⟨_, ⟨⟩⟩ := ite_none_left_eq_some.mp hleft
        exact .leaveQueued hp hsignaled
      | true =>
        rw [if_pos hsignaled] at hleft
        obtain rfl := some.inj hleft
        by_cases hstatus : status = .ok
        · rw [if_pos hstatus]
          exact .leaveOk (hstatus ▸ hp) hsignaled
        · rw [if_neg hstatus]
          exact .leaveLate hp hstatus hsignaled
    | running | asleep | racing => simp [next, hp] at h
  | signalRelease id m =>
    obtain ⟨_, ⟨⟩⟩ := ite_none_right_eq_some.mp h
    exact .signal

structure Sound (count : ℕ) (w : Monitors) : Prop where
  calm : Calm w
  lined : Lined count w

theorem sound_initial : Sound n initial where
  calm :=
    ⟨fun _ _ _ h ↦ by simp [initial] at h, fun _ _ h ↦ by simp [initial, eventOf?] at h,
      fun _ _ _ h ↦ by simp [initial, eventOf?] at h, fun _ ↦
      ⟨fun h ↦ absurd rfl h, fun _ ↦ rfl, fun _ h ↦ by simp [initial, Thread.initial] at h, fun _ h ↦ by
        simp [initial, eventOf?] at h⟩⟩
  lined m :=
    ⟨[], represents_empty _, fun id ↦ by simp [initial, Thread.initial, Thread.queuedOn?, Phase.monitor?],
    List.Pairwise.nil, by simp, by simp⟩

/-- Who has a mutex is no part of it. -/
theorem Sound.withOwner {owner : Option ℕ} (h : Sound n w) : Sound n (w.withOwner m owner) where
  calm := ⟨h.calm.one_slot, h.calm.fresh, h.calm.own, h.calm.steady⟩
  lined := h.lined.congr (fun u ↦ by
    by_cases hj : u = m
    · subst hj
      simp [Monitors.withOwner]
    · simp [Monitors.withOwner, hj]) rfl (fun id ↦ ⟨rfl, fun _ ↦ rfl⟩) rfl

/-- A change of one thread that stays where it is in its queue, or outside all of them. -/
theorem Sound.update (h : Sound n w) (t : Thread)
    (hp : t.queuedOn? = (w.threads id).queuedOn? ∧ t.ticket = (w.threads id).ticket)
    (hthread : Steady raised (w.eventOf? id) t)
    (hraised : ∀ e, w.eventOf? id ≠ some e → raised e = w.raised e) :
    Sound n { w with threads := update w.threads id t, raised := raised, freshSlot := slot } where
  calm := { h.calm.update t hthread hraised with }
  lined := h.lined.congr (fun _ ↦ rfl) rfl (fun u ↦ by
    by_cases hj : u = id
    · subst hj
      simpa using ⟨hp.1, fun _ ↦ hp.2⟩
    · simp [hj]) rfl

theorem Sound.enqueue (h : Sound n w) (hn : id < n) (hid : (w.threads id).phase.monitor? = none)
    (hslot : w.slot = none ∨ w.slot = some slot) : Sound n (w.enqueue id m slot) := by
  refine Sound.withOwner ?_
  obtain ⟨hcalm, hown⟩ := (h.calm.publish hslot).threadEvent rfl hid
  set e := (threadEvent id slot { w with slot := some slot }).1
  set middle := (threadEvent id slot { w with slot := some slot }).2 with hmiddle
  have hsame : middle.threads = w.threads ∧ middle.link = w.link ∧ middle.monitors = w.monitors ∧
      middle.clock = w.clock := by
    rw [hmiddle]
    unfold threadEvent
    cases hstored : w.stored slot id with
    | none | some => exact ⟨rfl, rfl, rfl, rfl⟩
  obtain ⟨hthreads, hlink, hmonitors, hclock⟩ := hsame
  have hlined : Lined n middle :=
    h.lined.congr (fun _ ↦ by rw [hmonitors]) hlink (fun _ ↦ by simp [hthreads]) hclock
  have hid' : (middle.threads id).phase.monitor? = none := by rw [hthreads, hid]
  have hsteady : Steady middle.raised (middle.eventOf? id) ((middle.threads id).queued m e middle.clock) :=
    ⟨fun _ ↦ hown, fun _ ↦ rfl, fun _ hp ↦ by simp [Thread.queued] at hp, fun x hx ↦
      ((hcalm.steady id).raised_eq x hx).trans (Thread.due_of_running hid')⟩
  exact ⟨{ hcalm.update _ hsteady fun _ _ ↦ rfl with }, hlined.append (Thread.queuedOn?_of_running hid') hn⟩

/-- A thread in a queue: not signaled, and a sleep that ended was not ended by its event. -/
theorem Calm.of_queued (h : Calm w) (hid : (w.threads id).queuedOn? = some m) :
    (w.threads id).signaled = false ∧ (w.threads id).phase.monitor? = some m ∧
      (w.threads id).phase ≠ .awake m .ok := by
  unfold Thread.queuedOn? at hid
  obtain ⟨hsignaled, hp⟩ := ite_none_left_eq_some.mp hid
  rw [Bool.not_eq_true] at hsignaled
  refine ⟨hsignaled, hp, fun hawake ↦ ?_⟩
  have hreleased := (h.steady id).released m hawake
  simp [hsignaled] at hreleased

variable {own : Option ℕ}

theorem Steady.marked (h : Steady raised own t)
    (hsignaled : t.signaled = false) (hp : t.phase.monitor? = some m)
    (hok : t.phase ≠ .awake m .ok) :
    Steady (update raised t.event true) own t.marked := by
  have hwaits : t.phase.monitor? ≠ none := by simp [hp]
  refine ⟨h.owns, fun _ ↦ ?_, fun _ _ ↦ rfl, fun e hevent ↦ ?_⟩
  · simp [Thread.marked, h.chosen hwaits, hsignaled]
  · rw [h.owns hwaits, some.injEq] at hevent
    rw [← hevent, update_self]
    unfold Thread.due Thread.marked
    cases hcase : t.phase with
    | running | racing => simp [hcase, Phase.monitor?] at hp
    | asleep => rfl
    | awake u status =>
      obtain rfl : u = m := by simpa [hcase, Phase.monitor?] using hp
      have hstatus : status ≠ .ok := fun heq ↦ hok (by rw [hcase, heq])
      simp [hstatus]

theorem Sound.signal (h : Sound n w) : Sound n (w.signal m) := by
  refine ⟨?_, h.lined.signal⟩
  obtain ⟨items, hline⟩ := h.lined m
  cases items with
  | nil =>
    rw [hline.signal_nil]
    exact h.calm
  | cons id rest =>
    obtain ⟨queue, heq, _⟩ := hline.signal
    obtain ⟨hsignaled, hp, hok⟩ := h.calm.of_queued ((hline.mem_iff id).mp mem_cons_self)
    have hsteady := h.calm.steady id
    have hown := hsteady.owns (by simp [hp])
    rw [heq]
    refine { h.calm.update _ (hsteady.marked hsignaled hp hok) fun e hevent ↦ update_of_ne ?_ .. with }
    exact fun hsame ↦ hevent (hsame ▸ hown)

/-- A wait that returns leaves its event unset. -/
theorem Steady.returned {result : Bool}
    (hunset : ∀ e, own = some e → raised e = false) : Steady raised own (t.returned result) :=
  ⟨fun h ↦ absurd rfl h, fun h ↦ absurd rfl h, fun _ h ↦ by simp [Thread.returned] at h, hunset⟩

/-- Only the event of the thread changes. -/
theorem update_raised (raised : ℕ → Bool) (v : Bool) (hown : own = some e) :
    (∀ x, own = some x → update raised e v x = v) ∧
      ∀ x, own ≠ some x → update raised e v x = raised x := by
  refine ⟨fun x hx ↦ ?_, fun x hx ↦ update_of_ne ?_ _ _⟩
  · rw [some.inj (hx.symm.trans hown), update_self]
  · rintro rfl
    exact hx hown

theorem Sound.step (h : Sound n w) (hstep : Step n w action w') : Sound n w' := by
  cases hstep with
  | acquire | release => exact h.withOwner
  | @raced id m hp =>
    have hsteady := h.calm.steady id
    have hid : (w.threads id).phase.monitor? = none := by simp [hp, Phase.monitor?]
    refine h.update ((w.threads id).raced m w.freshSlot) ⟨by simp [Thread.queuedOn?_of_running hid], rfl⟩
      ⟨fun hne ↦ absurd rfl hne, fun hne ↦ absurd rfl hne,
        fun _ heq ↦ by simp [Thread.raced] at heq, fun e hevent ↦ ?_⟩
      fun _ _ ↦ rfl
    exact (hsteady.raised_eq e hevent).trans (Thread.due_of_running hid)
  | enqueue _ hn hid hslot => exact h.enqueue hn hid hslot
  | @wake id m hp hraised =>
    have hsteady := h.calm.steady id
    have hwaits : (w.threads id).phase.monitor? ≠ none := by simp [hp, Phase.monitor?]
    have hown := hsteady.owns hwaits
    have hsignaled : (w.threads id).signaled = true := by
      simpa [hraised, Thread.due, hp] using (hsteady.raised_eq _ hown).symm
    obtain ⟨hself, hrest⟩ := update_raised w.raised false hown
    refine h.update ((w.threads id).woken m .ok) ⟨?_, rfl⟩
      ⟨fun _ ↦ hown, fun _ ↦ hsteady.chosen hwaits, fun _ _ ↦ hsignaled, fun e hevent ↦ ?_⟩ hrest
    · exact Thread.woken_queuedOn? (by simp [hp, Phase.monitor?])
    · exact (hself e hevent).trans (by simp [Thread.due, Thread.woken])
  | @sleepless _ id m status _ hp hstatus =>
    have hsteady := h.calm.steady id
    have hwaits : (w.threads id).phase.monitor? ≠ none := by simp [hp, Phase.monitor?]
    refine h.update ((w.threads id).woken m status) ⟨?_, rfl⟩
      ⟨fun _ ↦ hsteady.owns hwaits, fun _ ↦ hsteady.chosen hwaits, fun _ heq ↦ ?_, fun e hevent ↦ ?_⟩
      fun _ _ ↦ rfl
    · exact Thread.woken_queuedOn? (by simp [hp, Phase.monitor?])
    · simp [Thread.woken, hstatus] at heq
    · rw [hsteady.raised_eq e hevent]
      simp [Thread.due, Thread.woken, hp, hstatus]
  | @leaveOk id m hp hsignaled =>
    have hsteady := h.calm.steady id
    refine Sound.withOwner (h.update ((w.threads id).returned true) ⟨?_, rfl⟩
      (.returned fun e hevent ↦ ?_) fun _ _ ↦ rfl)
    · rw [Thread.returned_queuedOn?, Thread.queuedOn?_of_signaled hsignaled]
    · simpa [Thread.due, hp] using hsteady.raised_eq e hevent
  | @leaveLate id m status hp _ hsignaled =>
    have hown := (h.calm.steady id).owns (by simp [hp, Phase.monitor?])
    obtain ⟨hself, hrest⟩ := update_raised w.raised false hown
    refine Sound.withOwner (h.update ((w.threads id).returned true) ⟨?_, rfl⟩ (.returned hself) hrest)
    rw [Thread.returned_queuedOn?, Thread.queuedOn?_of_signaled hsignaled]
  | @leaveQueued id m status hp hsignaled =>
    have hsteady := h.calm.steady id
    have hqueued : (w.threads id).queuedOn? = some m := by
      simp [Thread.queuedOn?, hsignaled, hp, Phase.monitor?]
    refine Sound.withOwner ⟨{ h.calm.update ((w.threads id).returned false) (.returned fun e hevent ↦ ?_)
      fun _ _ ↦ rfl with }, h.lined.remove hqueued⟩
    simpa [Thread.due, hp, hsignaled] using hsteady.raised_eq e hevent
  | signal => exact h.signal.withOwner

theorem sound_of_reachable (h : (machine n).runs.Reachable w) : Sound n w :=
  Machine.invariant sound_initial (fun _ _ _ _ hs hnext ↦ hs.step (step_of_next hnext)) h

/-! ## What a wait can rely on -/

theorem threads_enqueue {x : ℕ} (hne : x ≠ id) : (w.enqueue id m slot).threads x = w.threads x := by
  have hsame : (threadEvent id slot { w with slot := some slot }).2.threads = w.threads := by
    unfold threadEvent
    cases w.stored slot id <;> rfl
  simp [enqueue, append, modifyThread, withQueue, withOwner, hsame, hne]

/-- What a step does to a wait that a signal chose: nothing, or the end of its sleep, or its return. -/
theorem Step.of_signaled (h : Step n w action w') (hs : Sound n w)
    (hwaits : (w.threads id).phase.monitor? ≠ none) (hsignaled : (w.threads id).signaled = true) :
    w'.threads id = w.threads id ∨ (∃ m status, (w.threads id).phase = .asleep m ∧
        w'.threads id = (w.threads id).woken m status) ∨
      (action = .reenter id ∧ w'.threads id = (w.threads id).returned true) := by
  cases h with
  | acquire | release => exact .inl rfl
  | @raced actor m hp =>
    have hne : id ≠ actor := by
      rintro rfl
      simp [hp, Phase.monitor?] at hwaits
    exact .inl (update_of_ne hne _ _)
  | @enqueue _ actor m slot _ _ hp _ =>
    have hne : id ≠ actor := by
      rintro rfl
      exact hwaits hp
    exact .inl (threads_enqueue hne)
  | @wake actor m hp _ =>
    by_cases hne : id = actor
    · subst hne
      exact .inr (.inl ⟨m, .ok, hp, update_self ..⟩)
    · exact .inl (update_of_ne hne _ _)
  | @sleepless _ actor m status _ hp _ =>
    by_cases hne : id = actor
    · subst hne
      exact .inr (.inl ⟨m, status, hp, update_self ..⟩)
    · exact .inl (update_of_ne hne _ _)
  | @leaveOk actor _ _ _ | @leaveLate actor _ _ _ _ _ =>
    by_cases hne : id = actor
    · subst hne
      exact .inr (.inr ⟨rfl, update_self ..⟩)
    · exact .inl (update_of_ne hne _ _)
  | @leaveQueued actor m status _ hqueued =>
    have hne : id ≠ actor := by
      rintro rfl
      simp [hqueued] at hsignaled
    exact .inl (update_of_ne hne _ _)
  | @signal actor m =>
    obtain ⟨items, hline⟩ := hs.lined m
    cases items with
    | nil =>
      rw [hline.signal_nil]
      exact .inl rfl
    | cons oldest rest =>
      obtain ⟨queue, heq, _⟩ := hline.signal
      obtain ⟨hunsignaled, _⟩ := hs.calm.of_queued ((hline.mem_iff oldest).mp mem_cons_self)
      have hne : id ≠ oldest := by
        rintro rfl
        simp [hunsignaled] at hsignaled
      rw [heq]
      exact .inl (update_of_ne hne _ _)

/-- A wait returns whether a signal chose it. -/
theorem result_of_reenter (h : Calm w) (hnext : next n (.reenter id) w = some w') :
    (w'.threads id).result = some (decide ((w.threads id).chosen = 1)) := by
  have hreturned : (w.threads id).phase.monitor? ≠ none ∧
      w'.threads id = (w.threads id).returned (w.threads id).signaled := by
    cases step_of_next hnext with
    | leaveOk hp hsignaled => simp [hp, Phase.monitor?, hsignaled, withOwner, modifyThread]
    | leaveLate hp _ hsignaled => simp [hp, Phase.monitor?, hsignaled, withOwner, modifyThread, setEvent]
    | leaveQueued hp hsignaled =>
      simp [hp, Phase.monitor?, hsignaled, withOwner, modifyThread, remove, withQueue]
    | enqueue haction | sleepless haction => simp at haction
  rw [hreturned.2, (h.steady id).chosen hreturned.1]
  cases (w.threads id).signaled <;> rfl

theorem Sound.wake_iff (h : Sound n w) (hp : (w.threads id).phase = .asleep m) :
    (next n (.wake id) w).isSome ↔ (w.threads id).chosen = 1 := by
  have hsteady := h.calm.steady id
  have hwaits : (w.threads id).phase.monitor? ≠ none := by simp [hp, Phase.monitor?]
  have hraised : w.raised (w.threads id).event = (w.threads id).signaled := by
    rw [hsteady.raised_eq _ (hsteady.owns hwaits), Thread.due, hp]
  rw [hsteady.chosen hwaits]
  cases hsignaled : (w.threads id).signaled with
  | false => simp [next, hraised, hsignaled]
  | true => simp [next, hraised, hsignaled, endSleep, setEvent, hp]

/-- In every interleaving, for every monitor: its queue is a list of the waits that no signal chose
and that have not left, oldest first. A signal marks the oldest wait and changes no other thread;
with nobody in the queue it only releases the monitor. A wait that was chosen stays chosen, its
sleep can end, and it returns 1; no other sleep is ended by the event, and a wait that was not
chosen returns 0. Outside its waits the event of a thread is unset. -/
theorem waits_of_reachable (hreach : (machine n).runs.Reachable w) :
    (∀ m, ∃ items, Represents w.link (w.monitors m).queue items ∧
      (w.monitors m).queue = ⟨items.head?, items.getLast?⟩ ∧
      (∀ id, id ∈ items ↔ (w.threads id).phase.monitor? = some m ∧ (w.threads id).signaled = false) ∧
      (items.Pairwise fun first second ↦ (w.threads first).ticket < (w.threads second).ticket) ∧
      ∀ id w', next n (.signalRelease id m) w = some w' → (w'.monitors m).owner = none ∧
        (items = [] → w' = w.withOwner m none) ∧
        ∀ oldest rest, items = oldest :: rest →
          w'.threads = update w.threads oldest (w.threads oldest).marked ∧
          Represents w'.link (w'.monitors m).queue rest) ∧
    (∀ id action w', (w.threads id).phase.monitor? ≠ none → (w.threads id).chosen = 1 →
      next n action w = some w' →
      ((w'.threads id).phase.monitor? = (w.threads id).phase.monitor? ∧ (w'.threads id).chosen = 1) ∨
        (action = .reenter id ∧ (w'.threads id).result = some true)) ∧
    (∀ id m, (w.threads id).phase = .asleep m →
      ((next n (.wake id) w).isSome ↔ (w.threads id).chosen = 1)) ∧
    (∀ id w', next n (.reenter id) w = some w' →
      (w'.threads id).result = some (decide ((w.threads id).chosen = 1))) ∧
    (∀ id e, w.eventOf? id = some e → (w.threads id).phase.monitor? = none → w.raised e = false) := by
  have h := sound_of_reachable hreach
  refine ⟨fun m ↦ ?_, fun id action w' hwaits hchosen hnext ↦ ?_, fun id m hphase ↦ h.wake_iff hphase,
    fun id w' hnext ↦ result_of_reenter h.calm hnext, fun id e hevent hphase ↦ ?_⟩
  · obtain ⟨items, hline⟩ := h.lined m
    refine ⟨items, hline.represents, hline.represents.queue_eq, fun id ↦ ?_, hline.ordered,
      fun id w' hnext ↦ ?_⟩
    · rw [hline.mem_iff, Thread.queuedOn?, ite_none_left_eq_some, Bool.not_eq_true, and_comm]
    · obtain ⟨_, ⟨⟩⟩ := ite_none_right_eq_some.mp hnext
      refine ⟨by simp [withOwner], ?_, ?_⟩
      · rintro rfl
        rw [hline.signal_nil]
      · rintro oldest rest rfl
        obtain ⟨queue, heq, hrest⟩ := hline.signal
        exact ⟨by rw [heq]; rfl, by simpa [withOwner] using hrest.represents⟩
  · have hsignaled : (w.threads id).signaled = true := by
      rw [(h.calm.steady id).chosen hwaits] at hchosen
      simpa using hchosen
    rcases (step_of_next hnext).of_signaled h hwaits hsignaled with hsame
      | ⟨m, status, hphase, hwoken⟩ | ⟨haction, hreturned⟩
    · exact .inl (by rw [hsame]; exact ⟨rfl, hchosen⟩)
    · refine .inl ?_
      rw [hwoken, hphase]
      exact ⟨rfl, hchosen⟩
    · exact .inr ⟨haction, by rw [hreturned]; rfl⟩
  · rw [(h.calm.steady id).raised_eq e hevent, Thread.due_of_running hphase]

/-- Two waits race for the slot, the first times out, and a signal chooses it before it has
the mutex again. -/
def lateSignal : List Action :=
  [.acquire 0 7, .wait 0 7, .acquire 1 8, .wait 1 8, .race 0, .race 1, .timeOut 0, .acquire 2 7,
    .signalRelease 2 7]

theorem waits_of_reachable_lateSignal : ∃ w, (machine 3).run lateSignal (machine 3).start = some w ∧
      ∀ w', next 3 (.reenter 0) w = some w' → (w'.threads 0).result = some true := by
  have hrun : ∃ w, (machine 3).run lateSignal (machine 3).start = some w ∧ (w.threads 0).chosen = 1 :=
    ⟨_, rfl, rfl⟩
  obtain ⟨w, hworld, hchosen⟩ := hrun
  refine ⟨w, hworld, fun w' hnext ↦ ?_⟩
  rw [(waits_of_reachable (Machine.reachable_of_run hworld)).2.2.2.1 0 w' hnext, hchosen]
  rfl

end Monitors

end DotnetPal.Native
