import DotnetPal.Foundations.Machines
import DotnetPal.Port
import Mathlib.Logic.Function.Basic

/-!
# A child process of the desktop providers

Any number of threads wait for one child and terminate it. Looking, which is what reaps the child,
and signalling happen under the mutex. One of the waiting threads watches the child without the
mutex and says so in `watched`; the others park on the condition. A watcher that comes back clears
the flag, wakes everybody and looks. The one release comes when no wait runs. A step is what a
thread does with the mutex held; the condition may wake a thread for no reason, and time is up
whenever a bounded wait says so.
-/

open Function

namespace DotnetPal.Desktop

open Programs

inductive ExitStatus
  | exited (code : ℤ)
  | signaled (signal : ℕ)
  | other
  deriving DecidableEq

def code : ExitStatus → ℤ
  | .exited code => code
  | .signaled signal => 128 + signal
  | .other => -1

/-- What the kernel has of the child: ended and not waited for, waited for here, or by the
embedding program. -/
inductive Kernel
  | running
  | zombie (status : ExitStatus)
  | reaped
  | stolen
  deriving DecidableEq

inductive Fate
  | running
  | ended (code : ℤ)
  | lost
  deriving DecidableEq

/-- Where a wait of a thread is; a bounded one has a deadline. -/
inductive WaitPhase
  | idle
  /-- Before the mutex: at the start, or woken from the condition. -/
  | entering (bounded : Bool)
  | watching (bounded : Bool)
  | parked (bounded : Bool)
  deriving DecidableEq

namespace WaitPhase

def watches : WaitPhase → Bool
  | .watching _ => true
  | _ => false

def parks : WaitPhase → Bool
  | .parked _ => true
  | _ => false

def notified : WaitPhase → WaitPhase
  | .parked bounded => .entering bounded
  | phase => phase

@[simp]
theorem watches_notified (phase : WaitPhase) : phase.notified.watches = phase.watches := by
  cases phase <;> rfl

@[simp]
theorem parks_notified (phase : WaitPhase) : phase.notified.parks = false := by
  cases phase <;> rfl

theorem notified_ne_idle {phase : WaitPhase} (h : phase.notified ≠ .idle) : phase ≠ .idle := by
  rintro rfl
  exact h rfl

end WaitPhase

structure Child where
  kernel : Kernel
  fate : Fate
  watched : Bool
  phases : ℕ → WaitPhase
  /-- The threads that wait. -/
  waiting : List ℕ
  released : Bool
  /-- How often the child was reaped here, and what the waits and the terminations answered. -/
  reaps : ℕ
  answers : List (Except Error ℤ)
  terminations : List (Except Error Unit)
  /-- The signals sent: whether forceful, and what the kernel had of the child. -/
  signals : List (Bool × Kernel)

namespace Child

/-- Looks once, with the mutex held. -/
def look (w : Child) : Except Error (Option ℤ) × Child :=
  match w.fate with
  | .ended code => (.ok (some code), w)
  | .lost => (.error .os, w)
  | .running =>
    match w.kernel with
    | .running => (.ok none, w)
    | .zombie status =>
      (.ok (some (code status)),
        { w with fate := .ended (code status), kernel := .reaped, reaps := w.reaps + 1 })
    | .reaped | .stolen => (.error .os, { w with fate := .lost })

/-- A wait answers. -/
def finish (id : ℕ) (answer : Except Error ℤ) (w : Child) : Child :=
  { w with
    phases := update w.phases id .idle
    waiting := w.waiting.filter (· ≠ id)
    answers := answer :: w.answers }

/-- A termination sends its signal; the answer is what kill answers. -/
def signal (forceful : Bool) (answer : Except Error Unit) (w : Child) : Child :=
  { w with signals := (forceful, w.kernel) :: w.signals, terminations := answer :: w.terminations }

/-- The loop of a wait from the mutex to the next point where it is let go. -/
def loop (id : ℕ) (bounded timeUp : Bool) (w : Child) : Child :=
  if w.watched then
    if bounded && timeUp then w.finish id (.error .timeout)
    else { w with phases := update w.phases id (.parked bounded) }
  else
    match w.look with
    | (.ok (some code), seen) => seen.finish id (.ok code)
    | (.error error, seen) => seen.finish id (.error error)
    | (.ok none, seen) =>
      if bounded && timeUp then seen.finish id (.error .timeout)
      else { seen with watched := true, phases := update seen.phases id (.watching bounded) }

/-- A watcher comes back: it clears the flag and wakes everybody on the condition. -/
def handOver (id : ℕ) (bounded : Bool) (w : Child) : Child :=
  { w with
    watched := false
    phases := update (fun other ↦ (w.phases other).notified) id (.entering bounded) }

inductive Action
  | wait (id : ℕ) (bounded : Bool)
  | turn (id : ℕ) (timeUp : Bool)
  /-- A parked thread wakes up without a notification, for no reason or because its time is up. -/
  | wake (id : ℕ)
  | terminate (forceful : Bool) (answer : Except Error Unit)
  | release
  /-- The child ends, and the embedding program reaps it. -/
  | die (status : ExitStatus)
  | steal

def next : Action → Child → Option Child
  | .wait id bounded, w =>
    if w.released = true ∨ w.phases id ≠ .idle then none
    else some { w with
      phases := update w.phases id (.entering bounded)
      waiting := id :: w.waiting }
  | .turn id timeUp, w =>
    match w.phases id with
    | .entering bounded => some (w.loop id bounded timeUp)
    | .watching bounded => some ((w.handOver id bounded).loop id bounded timeUp)
    | _ => none
  | .wake id, w =>
    match w.phases id with
    | .parked bounded => some { w with phases := update w.phases id (.entering bounded) }
    | _ => none
  | .terminate forceful answer, w =>
    if w.released then none
    else if w.watched then some (w.signal forceful answer)
    else match w.look with
      | (.ok none, seen) => some (seen.signal forceful answer)
      | (_, seen) => some { seen with terminations := .error .notFound :: seen.terminations }
  | .release, w => if w.released = true ∨ w.waiting ≠ [] then none
  else some { w.look.2 with released := true }
  | .die status, w => if w.kernel = .running then some { w with kernel := .zombie status } else none
  | .steal, w => if w.kernel = .reaped then none else some { w with kernel := .stolen }

def initial : Child where
  kernel := .running
  fate := .running
  watched := false
  phases _ := .idle
  waiting := []
  released := false
  reaps := 0
  answers := []
  terminations := []
  signals := []

def machine : Machine Child Action where
  start := initial
  next := next

/-! ## Invariants -/

/-- What the fate says about the kernel and about the answers so far. -/
def Fits (w : Child) : Fate → Prop
  | .running => w.reaps = 0 ∧ w.kernel ≠ .reaped ∧ ∀ code, .ok code ∉ w.answers
  | .ended code => w.reaps = 1 ∧ ∀ found, .ok found ∈ w.answers → found = code
  | .lost => w.reaps = 0 ∧ ∀ code, .ok code ∉ w.answers

structure Sound (w : Child) : Prop where
  one : ∀ id other, (w.phases id).watches = true → (w.phases other).watches = true → id = other
  flag : w.watched = true ↔ ∃ id, (w.phases id).watches = true
  parked : ∀ id, (w.phases id).parks = true → w.watched = true
  running : w.watched = true → w.fate = .running
  waiting : ∀ id, w.phases id ≠ .idle → id ∈ w.waiting
  fits : Fits w w.fate
  signals : ∀ signal ∈ w.signals, signal.2 ≠ .reaped

variable {w final : Child} {id : ℕ} {bounded : Bool}

theorem sound_initial : Sound initial where
  one _ _ h := by cases h
  flag := by simp [initial, WaitPhase.watches]
  parked _ h := by cases h
  running h := by cases h
  waiting _ h := absurd rfl h
  fits := ⟨rfl, by simp [initial], by simp [initial]⟩
  signals _ h := by cases h

variable (h : Sound w)
include h

theorem Sound.unwatched (hfree : w.watched = false) (id : ℕ) : (w.phases id).watches = false := by
  by_contra hwatches
  have hset := h.flag.mpr ⟨id, by simpa using hwatches⟩
  simp [hfree] at hset

/-- While the child runs, neither it nor the kernel says it was reaped. -/
theorem Sound.unreaped (hfate : w.fate = .running) : w.kernel ≠ .reaped := by
  have hfits := h.fits
  rw [hfate] at hfits
  exact hfits.2.1

/-- A look, while nobody watches. -/
theorem Sound.look (hfree : w.watched = false) : Sound w.look.2 := by
  have hfits := h.fits
  unfold Child.look
  split
  · exact h
  · exact h
  · next hfate =>
    rw [hfate] at hfits
    obtain ⟨hreaps, hkernel, hanswers⟩ := hfits
    split
    · exact h
    · next status hzombie =>
      refine { h with running := fun hset ↦ ?_, fits := ⟨by simp [hreaps], fun x hx ↦ ?_⟩ }
      · simp [hfree] at hset
      · exact absurd hx (hanswers x)
    all_goals
      refine { h with running := fun hset ↦ ?_, fits := ⟨hreaps, hanswers⟩ }
      simp [hfree] at hset

omit h in
/-- What a look answers is the fate it leaves. -/
theorem look_eq_ok {code : ℤ} (h : w.look.1 = .ok (some code)) : w.look.2.fate = .ended code := by
  unfold Child.look at h ⊢
  split at h
  · next hfate =>
    rw [hfate]
    simp_all
  · simp at h
  · next hfate =>
    split at h <;> simp_all

omit h in
theorem look_eq_none (h : w.look.1 = .ok none) : w.look.2 = w ∧ w.fate = .running := by
  unfold Child.look at h ⊢
  split at h
  · simp at h
  · simp at h
  · next hfate => split at h <;> simp_all

omit h in
@[simp]
theorem look_watched (w : Child) : w.look.2.watched = w.watched := by
  unfold Child.look
  split <;> try rfl
  split <;> rfl

/-- A thread that does not watch goes on to a phase in which it does not either. -/
theorem Sound.update (phase : WaitPhase) (waiting : List ℕ) (hold : (w.phases id).watches = false)
    (hnew : phase.watches = false) (hparked : phase.parks = true → w.watched = true)
    (hwaiting : ∀ j, j ≠ id → j ∈ w.waiting → j ∈ waiting) (hself : phase ≠ .idle → id ∈ waiting) :
    Sound { w with phases := Function.update w.phases id phase, waiting := waiting } := by
  have hwatches : ∀ j, (Function.update w.phases id phase j).watches = (w.phases j).watches := by
    intro j
    by_cases hne : j = id
    · rw [hne, Function.update_self, hold, hnew]
    · rw [Function.update_of_ne hne]
  refine ⟨fun a b ha hb ↦ ?_, ?_, fun j hj ↦ ?_, h.running, fun j hj ↦ ?_, h.fits, h.signals⟩
  · exact h.one a b ((hwatches a).symm.trans ha) ((hwatches b).symm.trans hb)
  · simpa only [hwatches] using h.flag
  · by_cases hne : j = id
    · subst hne
      exact hparked (by simpa using hj)
    · exact h.parked j (by simpa [hne] using hj)
  · by_cases hne : j = id
    · subst hne
      exact hself (by simpa using hj)
    · exact hwaiting j hne (h.waiting j (by simpa [hne] using hj))

theorem Sound.finish (hbefore : (w.phases id).watches = false) {answer : Except Error ℤ}
    (hanswer : ∀ code, answer = .ok code → w.fate = .ended code) : Sound (w.finish id answer) := by
  have hidle := h.update .idle (w.waiting.filter (· ≠ id)) hbefore rfl (fun hparks ↦ by cases hparks)
    (fun j hne hj ↦ List.mem_filter.mpr ⟨hj, by simpa using hne⟩) (fun hne ↦ absurd rfl hne)
  refine { hidle with fits := ?_ }
  have hcode : ∀ x, .ok x ∈ answer :: w.answers → w.fate = .ended x ∨ .ok x ∈ w.answers := by
    intro x hx
    rcases List.mem_cons.mp hx with rfl | hold
    · exact .inl (hanswer x rfl)
    · exact .inr hold
  have hfits := h.fits
  change Fits (w.finish id answer) w.fate
  cases hfate : w.fate with
  | running =>
    rw [hfate] at hfits
    exact ⟨hfits.1, hfits.2.1, fun x hx ↦ by simpa [hfate, hfits.2.2] using hcode x hx⟩
  | ended code =>
    rw [hfate] at hfits
    refine ⟨hfits.1, fun x hx ↦ ?_⟩
    rcases hcode x hx with hnew | hold
    · exact (Fate.ended.inj (hfate.symm.trans hnew)).symm
    · exact hfits.2 x hold
  | lost =>
    rw [hfate] at hfits
    exact ⟨hfits.1, fun x hx ↦ by simpa [hfate, hfits.2] using hcode x hx⟩

/-- A wait that has the mutex parks, answers, or becomes the one that watches. -/
theorem Sound.loop (hp : w.phases id = .entering bounded) (timeUp : Bool) :
    Sound (w.loop id bounded timeUp) := by
  have hold : (w.phases id).watches = false := by rw [hp]; rfl
  have hmember : id ∈ w.waiting := h.waiting id (by simp [hp])
  unfold Child.loop
  split
  · next hwatched =>
    split_ifs
    · exact h.finish hold (by simp)
    · exact h.update (.parked bounded) w.waiting hold rfl (fun _ ↦ hwatched)
        (fun _ _ hj ↦ hj) fun _ ↦ hmember
  · next hwatched =>
    have hfree : w.watched = false := by simpa using hwatched
    have hseen := h.look hfree
    split
    · next code seen hlook =>
      have hfate := look_eq_ok (congrArg Prod.fst hlook)
      rw [hlook] at hseen hfate
      refine hseen.finish (hseen.unwatched ?_ id) fun x hx ↦ ?_
      · simpa [hlook, hfree] using look_watched w
      · rw [← Except.ok.inj hx]
        exact hfate
    · next error seen hlook =>
      rw [hlook] at hseen
      refine hseen.finish (hseen.unwatched ?_ id) (by simp)
      simpa [hlook, hfree] using look_watched w
    · next seen hlook =>
      obtain ⟨hsame, hfate⟩ := look_eq_none (congrArg Prod.fst hlook)
      rw [hlook] at hsame
      obtain rfl : seen = w := hsame
      split_ifs
      · exact h.finish hold (by simp)
      · have hwatches : ∀ j, (Function.update seen.phases id (.watching bounded) j).watches = true ↔
          j = id := by
          intro j
          by_cases hne : j = id
          · simp [hne, WaitPhase.watches]
          · simp [hne, h.unwatched hfree j]
        refine ⟨fun a b ha hb ↦ ?_, ?_, fun _ _ ↦ rfl, fun _ ↦ hfate, fun j hj ↦ ?_, h.fits, h.signals⟩
        · rw [(hwatches a).mp ha, (hwatches b).mp hb]
        · exact ⟨fun _ ↦ ⟨id, (hwatches id).mpr rfl⟩, fun _ ↦ rfl⟩
        · by_cases hne : j = id
          · exact hne ▸ hmember
          · exact h.waiting j (by simpa [hne] using hj)

/-- Nobody is parked and nobody watches once the watcher has woken everybody. -/
theorem Sound.handOver (hp : w.phases id = .watching bounded) : Sound (w.handOver id bounded) := by
  have hwatches : ∀ j, (Function.update (fun x ↦ (w.phases x).notified) id (.entering bounded) j).watches =
      false := by
    intro j
    by_cases hne : j = id
    · simp [hne, WaitPhase.watches]
    · rw [Function.update_of_ne hne, WaitPhase.watches_notified, ← Bool.not_eq_true]
      exact fun hj ↦ hne (h.one j id hj (by rw [hp]; rfl))
  refine ⟨fun a _ ha ↦ ?_, ⟨(fun hset ↦ by cases hset), fun ⟨j, hj⟩ ↦ ?_⟩, fun j hj ↦ ?_,
    (fun hset ↦ by cases hset), fun j hj ↦ ?_, h.fits, h.signals⟩
  · cases (hwatches a).symm.trans ha
  · cases (hwatches j).symm.trans hj
  · by_cases hne : j = id
    · simp [Child.handOver, hne, WaitPhase.parks] at hj
    · simp [Child.handOver, hne] at hj
  · by_cases hne : j = id
    · exact hne ▸ h.waiting id (by simp [hp])
    · refine h.waiting j (WaitPhase.notified_ne_idle ?_)
      simpa [Child.handOver, hne] using hj

theorem Sound.signal (hfate : w.fate = .running) (forceful : Bool) (answer : Except Error Unit) :
    Sound (w.signal forceful answer) := by
  refine { h with signals := fun signal hsignal ↦ ?_ }
  rcases List.mem_cons.mp hsignal with rfl | hold
  · exact h.unreaped hfate
  · exact h.signals signal hold

/-- What happens to the child outside the provider. -/
theorem Sound.outside {kernel : Kernel} (hkernel : kernel ≠ .reaped) : Sound { w with kernel } := by
  refine { h with fits := ?_ }
  have hfits := h.fits
  change Fits { w with kernel } w.fate
  cases hfate : w.fate with
  | running =>
    rw [hfate] at hfits
    exact ⟨hfits.1, hkernel, hfits.2.2⟩
  | ended code | lost =>
    rw [hfate] at hfits
    exact hfits

theorem Sound.next {action : Action} (hnext : next action w = some final) : Sound final := by
  cases action with
  | wait id bounded =>
    obtain ⟨hfree, hnext⟩ := Option.ite_none_left_eq_some.mp hnext
    cases hnext
    have hidle : w.phases id = .idle := by
      by_contra hbusy
      exact hfree (.inr hbusy)
    exact h.update (.entering bounded) (id :: w.waiting) (by rw [hidle]; rfl) rfl
      (fun hparks ↦ by cases hparks)
      (fun _ _ hj ↦ List.mem_cons_of_mem _ hj) fun _ ↦ List.mem_cons_self
  | turn id timeUp =>
    simp only [Child.next] at hnext
    split at hnext <;> cases hnext
    · exact h.loop ‹_› timeUp
    · exact (h.handOver ‹_›).loop (by simp [Child.handOver]) timeUp
  | wake id =>
    simp only [Child.next] at hnext
    split at hnext
    · next bounded hp =>
      cases hnext
      exact h.update (.entering bounded) w.waiting (by rw [hp]; rfl) rfl (fun hparks ↦ by cases hparks)
        (fun _ _ hj ↦ hj) fun _ ↦ h.waiting id (by simp [hp])
    · cases hnext
  | terminate forceful answer =>
    obtain ⟨_, hnext⟩ := Option.ite_none_left_eq_some.mp hnext
    split_ifs at hnext with hwatched
    · cases hnext
      exact h.signal (h.running hwatched) forceful answer
    · have hseen := h.look (by simpa using hwatched)
      split at hnext
      · next seen hlook =>
        cases hnext
        obtain ⟨hsame, hfate⟩ := look_eq_none (congrArg Prod.fst hlook)
        rw [hlook] at hsame
        obtain rfl : seen = w := hsame
        exact h.signal hfate forceful answer
      · next seen _ hlook =>
        cases hnext
        rw [hlook] at hseen
        exact { hseen with }
  | release =>
    obtain ⟨hfree, hnext⟩ := Option.ite_none_left_eq_some.mp hnext
    cases hnext
    have hunwatched : w.watched = false := by
      by_contra hset
      obtain ⟨id, hwatches⟩ := h.flag.mp (by simpa using hset)
      have hmember := h.waiting id (by intro hidle; simp [hidle, WaitPhase.watches] at hwatches)
      exact hfree (.inr (List.ne_nil_of_mem hmember))
    have hseen := h.look hunwatched
    exact { hseen with }
  | die status =>
    obtain ⟨_, hnext⟩ := Option.ite_none_right_eq_some.mp hnext
    cases hnext
    exact h.outside (by simp)
  | steal =>
    obtain ⟨_, hnext⟩ := Option.ite_none_left_eq_some.mp hnext
    cases hnext
    exact h.outside (by simp)

omit h

theorem sound_of_reachable (hreach : machine.runs.Reachable w) : Sound w :=
  Machine.invariant sound_initial (fun _ _ _ _ h hnext ↦ h.next hnext) hreach

/-- In every run: one thread watches exactly while the flag is set; signals go to a child that was
not reaped here; it is reaped once at most, and the waits that answer a code answer the same; a
parked thread has somebody who watches, and a watcher that comes back leaves nobody parked unless it
goes on watching. -/
theorem watch_of_reachable (hreach : machine.runs.Reachable w) :
    (∀ id other, (w.phases id).watches = true → (w.phases other).watches = true → id = other) ∧
    (w.watched = true ↔ ∃ id, (w.phases id).watches = true) ∧
    (∀ signal ∈ w.signals, signal.2 ≠ .reaped) ∧
    w.reaps ≤ 1 ∧
    (∀ first second, .ok first ∈ w.answers → .ok second ∈ w.answers → first = second) ∧
    (w.watched = false → ∀ id, (w.phases id).parks = false) ∧
    ∀ id timeUp final, (w.phases id).watches = true → next (.turn id timeUp) w = some final →
      final.watched = false → ∀ other, (final.phases other).parks = false := by
  have h := sound_of_reachable hreach
  have hunparked : ∀ {state : Child}, Sound state → state.watched = false → ∀ id,
    (state.phases id).parks = false := by
    intro state hstate hfree id
    by_contra hparks
    have hset := hstate.parked id (by simpa using hparks)
    simp [hfree] at hset
  have hcodes : w.reaps ≤ 1 ∧ ∀ first second, .ok first ∈ w.answers → .ok second ∈ w.answers →
    first = second := by
    have hfits := h.fits
    cases hfate : w.fate with
    | running =>
      rw [hfate] at hfits
      exact ⟨by simp [hfits.1], fun first _ hfirst ↦ absurd hfirst (hfits.2.2 first)⟩
    | ended code =>
      rw [hfate] at hfits
      exact ⟨hfits.1.le, fun first second hfirst hsecond ↦
        (hfits.2 first hfirst).trans (hfits.2 second hsecond).symm⟩
    | lost =>
      rw [hfate] at hfits
      exact ⟨by simp [hfits.1], fun first _ hfirst ↦ absurd hfirst (hfits.2 first)⟩
  exact ⟨h.one, h.flag, h.signals, hcodes.1, hcodes.2, hunparked h, fun _ _ _ _ hnext ↦
    hunparked (h.next hnext)⟩

/-- Two threads wait; the first gives up at its deadline, the second watches on and learns the code. -/
theorem watch_of_reachable_handedOver :
    ∃ w, machine.runs.Reachable w ∧ w.answers = [.ok 3, .error .timeout] ∧ w.reaps ≤ 1 := by
  have hrun := Machine.reachable_of_run
    (show machine.run
      [.wait 0 true, .turn 0 false, .wait 1 false, .turn 1 false, .turn 0 true, .turn 1 false,
      .die (.exited 3), .turn 1 false] initial = some _ from rfl)
  exact ⟨_, hrun, rfl, (watch_of_reachable hrun).2.2.2.1⟩

end Child

end DotnetPal.Desktop
