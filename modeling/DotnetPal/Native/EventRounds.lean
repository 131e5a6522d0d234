import DotnetPal.Native.EventPort

/-!
# Rounds of a waiter that nobody disturbs

While no wake comes and no other thread changes a registration or a mark, a port's waiter goes round
and round over the same registrations, each with a condition that stays. A round that returns from
its poll is to deliver an event or to set a mark, so that after finitely many the waiter sleeps. The
poll reports error and hang-up unasked, so that needs a socket with one of the two to leave the poll
once it is told; it leaves when nothing is asked of it and both are marked.
-/

open List

namespace DotnetPal.Native.EventPort

open Registration

/-! ## Rounds -/

/-- What the poll says of a registration. -/
def Scanned.triggered (scanned : Scanned) : BitVec 32 :=
  match scanned.registration.source, scanned.requested with
  | .socket condition, some requested => Poll.answer requested condition
  | _, _ => 0

theorem triggered_of_none {done : Scanned} (h : done.requested = none) : done.triggered = 0 := by
  unfold Scanned.triggered
  rw [h]
  cases done.registration.source <;> rfl

/-- The deliveries after the poll, in the order of the snapshot. -/
def deliverAll (room : ℕ) : List Event → List Scanned → List Registration × List Event
  | events, [] => ([], events)
  | events, scanned :: rest =>
    let first := deliver room scanned.triggered events scanned.registration
    let later := deliverAll room first.2 rest
    (first.1 :: later.1, later.2)

/-- What a waiter keeps between two rounds. -/
structure Waiting where
  capacity : ℕ
  registrations : List Registration
  deriving DecidableEq

namespace Waiting

/-- The look at the registrations, with a snapshot that has room for them. -/
def look (room : ℕ) (waiting : Waiting) : List Scanned × List Event :=
  scan (min (reserve waiting.capacity waiting.registrations.length) Poll.maxPoll) room 0 []
    waiting.registrations

/-- The poll has nothing to say. -/
def Silent (room : ℕ) (waiting : Waiting) : Prop := ∀ scanned ∈ (waiting.look room).1, scanned.triggered = 0

instance (room : ℕ) (waiting : Waiting) : Decidable (waiting.Silent room) :=
  inferInstanceAs (Decidable (∀ _ ∈ _, _))

/-- One round, unless it sleeps in its poll. -/
def round (room : ℕ) (waiting : Waiting) : Option (List Event × Waiting) :=
  let looked := waiting.look room
  if looked.2 = [] ∧ waiting.Silent room then none
  else
    let delivered := deliverAll room looked.2 looked.1
    some (delivered.2, ⟨reserve waiting.capacity waiting.registrations.length, delivered.1⟩)

/-- Some rounds, each with an event buffer that is not empty. -/
inductive Rounds (start : Waiting) : ℕ → Waiting → Prop
  | none : Rounds start 0 start
  | more {n room : ℕ} {middle final : Waiting} {events : List Event}
      (hrounds : Rounds start n middle) (hroom : 0 < room)
      (hround : middle.round room = some (events, final)) : Rounds start (n + 1) final

end Waiting

/-- A mark is set that was not. -/
def Marks (before after : List Registration) : Prop :=
  ∃ (i bit : ℕ) (first second : Registration), before[i]? = some first ∧ after[i]? = some second ∧
    first.reported.getLsbD bit = false ∧ second.reported.getLsbD bit = true

namespace Registration

/-- A socket that a round polls. -/
def polls (reg : Registration) : Bool :=
  match reg.source with
  | .socket _ => decide ¬Exhausted reg.events reg.reported
  | _ => false

/-- A socket that is polled even when everything that holds of it is marked. -/
def lasting (reg : Registration) : Bool :=
  match reg.source with
  | .socket condition => decide ¬Exhausted reg.events (reg.reported ||| conditions condition)
  | _ => false

/-- A socket with an error or a hang-up. -/
def troubled (reg : Registration) : Bool :=
  match reg.source with
  | .socket condition => decide (condition &&& Poll.error ≠ 0 ∨ condition &&& Poll.hangup ≠ 0)
  | _ => false

end Registration

/-- No socket that stays in the poll has an error or a hang-up. -/
def Settles (regs : List Registration) : Prop :=
  ∀ reg ∈ (regs.filter lasting).take Poll.maxPoll, reg.troubled = false

/-! ## One look -/

section Look

variable {limit room polled : ℕ} {es : List Event} {reg : Registration} {regs : List Registration}

theorem lookAt_requested (room : ℕ) (es : List Event) (reg : Registration) :
    (lookAt room es reg).1.requested =
      if reg.polls then some (wanted reg.events reg.reported) else none := by
  obtain ⟨object, source, data, asked, reported⟩ := reg
  cases source with
  | socket cond =>
    by_cases hexhausted : Exhausted asked reported
    · simp [lookAt, polls, hexhausted]
    · simp [lookAt, polls, hexhausted]
  | reader | writer =>
    simp only [lookAt, polls]
    split <;> rfl

/-- A look changes nothing, or it marks a pipe and delivers what it marks. -/
theorem lookAt_cases (room : ℕ) (es : List Event) (reg : Registration) :
    ((lookAt room es reg).1.registration = reg ∧ (lookAt room es reg).2 = es) ∨
      ((∀ cond, reg.source ≠ .socket cond) ∧ reg.fresh ≠ 0 ∧
        (lookAt room es reg).1.registration = reg.marked reg.fresh ∧
        (lookAt room es reg).2 = es ++ [⟨reg.data, reg.fresh⟩]) := by
  unfold lookAt
  split
  · left
    split <;> exact ⟨rfl, rfl⟩
  · next hpipe =>
    split
    · next hfresh => exact .inr ⟨hpipe, hfresh.1, rfl, rfl⟩
    · exact .inl ⟨rfl, rfl⟩

/-- How many entries there are after a look. -/
def polledAfter (polled room : ℕ) (events : List Event) (reg : Registration) : ℕ :=
  if (lookAt room events reg).1.requested.isSome then polled + 1 else polled

theorem scan_of_lt (hlimit : polled < limit) (rest : List Registration) :
    scan limit room polled es (reg :: rest) =
      ((lookAt room es reg).1 ::
          (scan limit room (polledAfter polled room es reg) (lookAt room es reg).2 rest).1,
        (scan limit room (polledAfter polled room es reg) (lookAt room es reg).2 rest).2) := by
  rw [scan, if_pos hlimit]
  rfl

theorem scan_of_not_lt (hlimit : ¬polled < limit) :
    scan limit room polled es regs = (regs.map (⟨·, none⟩), es) := by
  cases regs with
  | nil => rfl
  | cons reg rest => rw [scan, if_neg hlimit]

theorem scan_prefix (limit room polled : ℕ) (es : List Event) (regs : List Registration) :
    es <+: (scan limit room polled es regs).2 := by
  induction regs generalizing polled es with
  | nil => exact prefix_rfl
  | cons reg rest ih =>
    by_cases hlimit : polled < limit
    · rw [scan_of_lt hlimit]
      refine List.IsPrefix.trans ?_ (ih _ _)
      rcases lookAt_cases room es reg with ⟨_, hsame⟩ | ⟨_, _, _, hmore⟩
      · rw [hsame]
      · rw [hmore]
        exact prefix_append _ _
    · rw [scan_of_not_lt hlimit]

/-- A scan that delivers nothing changes nothing. -/
theorem scan_registrations (h : (scan limit room polled [] regs).2 = []) :
    (scan limit room polled [] regs).1.map Scanned.registration = regs := by
  induction regs generalizing polled with
  | nil => rfl
  | cons reg rest ih =>
    by_cases hlimit : polled < limit
    · rw [scan_of_lt hlimit] at h ⊢
      have hprefix := scan_prefix limit room (polledAfter polled room [] reg) (lookAt room [] reg).2 rest
      rw [h] at hprefix
      rcases lookAt_cases room [] reg with ⟨hreg, hevents⟩ | ⟨_, _, _, hmore⟩
      · simp only [hevents] at h ⊢
        rw [map_cons, hreg, ih h]
      · rw [hmore] at hprefix
        simp at hprefix
    · rw [scan_of_not_lt hlimit]
      simp [Function.comp_def]

/-- The entries of the poll are the sockets that are not exhausted, as far as the snapshot goes,
with what is wanted. -/
theorem polled_scan (limit room polled : ℕ) (es : List Event) (regs : List Registration) :
    (scan limit room polled es regs).1.filter (fun done ↦ done.requested.isSome) =
      ((regs.filter polls).take (limit - polled)).map fun reg ↦
        ⟨reg, some (wanted reg.events reg.reported)⟩ := by
  induction regs generalizing polled es with
  | nil => simp [scan]
  | cons reg rest ih =>
    by_cases hlimit : polled < limit
    · have hrequested := lookAt_requested room es reg
      rw [scan_of_lt hlimit, filter_cons, filter_cons, ih, polledAfter, hrequested]
      by_cases hpolls : reg.polls = true
      · have hreg : (lookAt room es reg).1 = ⟨reg, some (wanted reg.events reg.reported)⟩ := by
          rw [if_pos hpolls] at hrequested
          rcases lookAt_cases room es reg with ⟨hsame, _⟩ | ⟨hpipe, _, _, _⟩
          · cases hlook : (lookAt room es reg).1
            simp only [hlook] at hsame hrequested
            rw [hsame, hrequested]
          · unfold polls at hpolls
            split at hpolls
            · next hsocket => exact absurd hsocket (hpipe _)
            · cases hpolls
        simp only [hpolls, if_true, Option.isSome_some]
        rw [hreg, show limit - polled = limit - (polled + 1) + 1 by omega, take_succ_cons, map_cons]
      · simp only [hpolls, if_false, Option.isSome_none, Bool.false_eq_true]
    · rw [scan_of_not_lt hlimit, show limit - polled = 0 by omega]
      simp

end Look

/-! ## Marks -/

/-- The bits that are not set. -/
def unset (mask : BitVec 32) : Finset ℕ := (Finset.range 32).filter fun bit ↦ mask.getLsbD bit = false

theorem unset_or_subset (mask more : BitVec 32) : unset (mask ||| more) ⊆ unset mask := by
  intro bit hbit
  simp only [unset, Finset.mem_filter, BitVec.getLsbD_or, Bool.or_eq_false_iff] at hbit ⊢
  exact ⟨hbit.1, hbit.2.1⟩

theorem card_unset_or_lt {mask more : BitVec 32} {bit : ℕ} (hmask : mask.getLsbD bit = false)
    (hmore : more.getLsbD bit = true) :
    (unset (mask ||| more)).card < (unset mask).card := by
  have hlt : bit < 32 := BitVec.lt_of_getLsbD hmore
  refine Finset.card_lt_card ((Finset.ssubset_iff_of_subset (unset_or_subset mask more)).mpr ⟨bit, ?_, ?_⟩)
  · exact Finset.mem_filter.mpr ⟨Finset.mem_range.mpr hlt, hmask⟩
  · intro hbit
    have hunset := (Finset.mem_filter.mp hbit).2
    rw [BitVec.getLsbD_or, hmask, hmore] at hunset
    cases hunset

/-- How many marks are left to set. -/
def unmarked (regs : List Registration) : ℕ := (regs.map fun reg ↦ (unset reg.reported).card).sum

/-- A round adds marks only, and to a socket those of what holds of it. -/
structure Grows (before after : Registration) : Prop where
  marks : ∃ marks, after = before.marked marks ∧
    ∀ condition, before.source = .socket condition → marks ||| conditions condition = conditions condition

namespace Grows

variable {first second third : Registration}

theorem refl (reg : Registration) : Grows reg reg :=
  ⟨0, by simp [marked], fun _ _ ↦ by simp⟩

variable (h : Grows first second)
include h

theorem trans (hnext : Grows second third) : Grows first third := by
  obtain ⟨marks, rfl, hmarks⟩ := h.marks
  obtain ⟨more, rfl, hmore⟩ := hnext.marks
  refine ⟨marks ||| more, ?_, fun cond hsource ↦ ?_⟩
  · simp [marked, BitVec.or_assoc]
  · rw [BitVec.or_assoc, hmore cond hsource, hmarks cond hsource]

theorem card_le : (unset second.reported).card ≤ (unset first.reported).card := by
  obtain ⟨marks, rfl, _⟩ := h.marks
  exact Finset.card_le_card (unset_or_subset _ _)

theorem card_lt {bit : ℕ} (ha : first.reported.getLsbD bit = false)
    (hb : second.reported.getLsbD bit = true) :
    (unset second.reported).card < (unset first.reported).card := by
  obtain ⟨marks, rfl, _⟩ := h.marks
  refine card_unset_or_lt ha ?_
  simpa [marked, ha] using hb

theorem lasting_eq : second.lasting = first.lasting := by
  obtain ⟨marks, rfl, hmarks⟩ := h.marks
  simp only [lasting, marked]
  split
  · next cond hsource =>
    have hsame : first.reported ||| marks ||| conditions cond = first.reported ||| conditions cond := by
      rw [BitVec.or_assoc, hmarks cond hsource]
    simp only [hsame]
  · rfl

theorem troubled_eq : second.troubled = first.troubled := by
  obtain ⟨marks, rfl, _⟩ := h.marks
  rfl

end Grows

theorem unmarked_le {old new : List Registration} (h : List.Forall₂ Grows old new) :
    unmarked new ≤ unmarked old := by
  induction h with
  | nil => exact le_rfl
  | cons ha _ ih =>
    simp only [unmarked, map_cons, sum_cons] at ih ⊢
    exact Nat.add_le_add ha.card_le ih

theorem unmarked_lt {old new : List Registration} (h : List.Forall₂ Grows old new)
    (hmarks : Marks old new) :
    unmarked new < unmarked old := by
  obtain ⟨i, bit, first, second, hold, hnew, ha, hb⟩ := hmarks
  induction h generalizing i with
  | nil => simp at hold
  | cons hhead htail ih =>
    have hle := unmarked_le htail
    simp only [unmarked, map_cons, sum_cons] at ih hle ⊢
    cases i with
    | zero =>
      cases hold
      cases hnew
      have hlt := hhead.card_lt ha hb
      omega
    | succ i =>
      have hlt := ih i hold hnew
      have hhead := hhead.card_le
      omega

theorem settles_iff {old new : List Registration} (h : List.Forall₂ Grows old new) :
    Settles new ↔ Settles old := by
  have hfilter : List.Forall₂ Grows (old.filter lasting) (new.filter lasting) := by
    induction h with
    | nil => exact .nil
    | @cons first second _ _ ha _ ih =>
      rw [filter_cons, filter_cons, ha.lasting_eq]
      split
      · exact .cons ha ih
      · exact ih
  have htake := forall₂_take Poll.maxPoll hfilter
  unfold Settles
  generalize (old.filter lasting).take Poll.maxPoll = firsts at htake ⊢
  generalize (new.filter lasting).take Poll.maxPoll = seconds at htake ⊢
  induction htake with
  | nil => simp
  | cons ha _ ih => simp [ha.troubled_eq, ih]

theorem Marks.cons {old new : List Registration} (h : Marks old new) (first second : Registration) :
    Marks (first :: old) (second :: new) := by
  obtain ⟨i, h⟩ := h
  exact ⟨i + 1, h⟩

theorem marks_head {old new : List Registration} {first : Registration} {marks : BitVec 32}
    (h : marks &&& ~~~first.reported ≠ 0) : Marks (first :: old) (first.marked marks :: new) := by
  obtain ⟨bit, hbit⟩ := Flags.ne_zero_iff.mp h
  have hlt := BitVec.lt_of_getLsbD hbit
  simp only [BitVec.getLsbD_and, BitVec.getLsbD_not, hlt, decide_true, Bool.true_and,
    Bool.and_eq_true, Bool.not_eq_true'] at hbit
  refine ⟨0, bit, first, first.marked marks, rfl, rfl, hbit.2, ?_⟩
  rw [marked, BitVec.getLsbD_or, hbit.1, Bool.or_true]

theorem grows_trans {first second third : List Registration} (h : List.Forall₂ Grows first second)
    (hnext : List.Forall₂ Grows second third) : List.Forall₂ Grows first third := by
  induction h generalizing third with
  | nil => exact hnext
  | cons hhead _ ih =>
    cases hnext with
    | cons hhead' htail' => exact .cons (hhead.trans hhead') (ih htail')

theorem grows_refl (regs : List Registration) : List.Forall₂ Grows regs regs :=
  forall₂_same.mpr fun reg _ ↦ Grows.refl reg

/-! ## A round -/

section Round

variable {limit room polled : ℕ} {es : List Event} {reg : Registration} {regs : List Registration}

theorem scan_grows (polled : ℕ) (es : List Event) (regs : List Registration) :
    List.Forall₂ Grows regs ((scan limit room polled es regs).1.map Scanned.registration) := by
  induction regs generalizing polled es with
  | nil => exact .nil
  | cons reg rest ih =>
    by_cases hlimit : polled < limit
    · rw [scan_of_lt hlimit]
      refine .cons ?_ (ih _ _)
      rcases lookAt_cases room es reg with ⟨hsame, _⟩ | ⟨hpipe, _, hmarked, _⟩
      · rw [hsame]
        exact Grows.refl reg
      · rw [hmarked]
        exact ⟨_, rfl, fun cond hsocket ↦ absurd hsocket (hpipe cond)⟩
    · rw [scan_of_not_lt hlimit, map_map]
      simpa [Function.comp_def] using grows_refl (reg :: rest)

/-- What a scan delivers it marks. -/
theorem scan_marks (h : (scan limit room polled es regs).2 ≠ es) :
    Marks regs ((scan limit room polled es regs).1.map Scanned.registration) := by
  induction regs generalizing polled es with
  | nil => exact absurd rfl h
  | cons reg rest ih =>
    by_cases hlimit : polled < limit
    · rw [scan_of_lt hlimit] at h ⊢
      rcases lookAt_cases room es reg with ⟨_, hsame⟩ | ⟨_, hfresh, hmarked, _⟩
      · refine (ih ?_).cons _ _
        rwa [hsame] at h ⊢
      · rw [map_cons, hmarked]
        refine marks_head ?_
        rwa [fresh, BitVec.and_assoc, BitVec.and_self, ← fresh]
    · rw [scan_of_not_lt hlimit] at h
      exact absurd rfl h

theorem told_zero (es : BitVec 32) : told es 0 = 0 := by
  simp [told]

theorem news_and_not (triggered reported : BitVec 32) :
    news triggered reported &&& ~~~reported = news triggered reported := by
  rw [news, BitVec.and_assoc, BitVec.and_self]

theorem news_zero (reported : BitVec 32) : news 0 reported = 0 := by
  rw [news_eq_zero_iff]
  simp

/-- A delivery changes nothing, or it marks what is new and tells what of it is asked for. -/
theorem deliver_cases (room : ℕ) (triggered : BitVec 32) (es : List Event) (reg : Registration) :
    (deliver room triggered es reg = (reg, es) ∧ (triggered = 0 ∨ room ≤ es.length)) ∨
      (triggered ≠ 0 ∧ (deliver room triggered es reg).1 = reg.marked (news triggered reg.reported) ∧
        ((deliver room triggered es reg).2 = es ∨ (news triggered reg.reported ≠ 0 ∧
            (deliver room triggered es reg).2 =
              es ++ [⟨reg.data, told reg.events (news triggered reg.reported)⟩]))) := by
  unfold deliver
  split
  · next hroom =>
    refine .inr ⟨hroom.1, rfl, ?_⟩
    simp only
    split
    · next htold =>
      refine .inr ⟨fun hnews ↦ htold ?_, rfl⟩
      rw [hnews, told_zero]
    · exact .inl rfl
  · next hroom =>
    refine .inl ⟨rfl, ?_⟩
    by_cases htriggered : triggered = 0
    · exact .inl htriggered
    · exact .inr (Nat.not_lt.mp fun hlt ↦ hroom ⟨htriggered, hlt⟩)

theorem conditions_answer (requested cond : BitVec 32) :
    conditions (Poll.answer requested cond) ||| conditions cond = conditions cond := by
  refine BitVec.eq_of_getLsbD_eq fun bit _ ↦ ?_
  simp only [BitVec.getLsbD_or, getLsbD_conditions, getLsbD_answer]
  grind

theorem deliver_grows (room : ℕ) (es : List Event) (done : Scanned) :
    Grows done.registration (deliver room done.triggered es done.registration).1 := by
  rcases deliver_cases room done.triggered es done.registration with ⟨hsame, _⟩ | ⟨_, hmarked, _⟩
  · rw [hsame]
    exact Grows.refl _
  · rw [hmarked]
    refine ⟨_, rfl, fun cond hsource ↦ ?_⟩
    have htriggered : conditions done.triggered ||| conditions cond = conditions cond := by
      unfold Scanned.triggered
      rw [hsource]
      cases done.requested with
      | none => simp [conditions]
      | some requested => exact conditions_answer requested cond
    refine BitVec.eq_of_getLsbD_eq fun bit hbit ↦ ?_
    have hbits := congrArg (fun mask ↦ mask.getLsbD bit) htriggered
    simp only [news, BitVec.getLsbD_or, BitVec.getLsbD_and] at hbits ⊢
    grind

theorem deliverAll_prefix (room : ℕ) (es : List Event) (snapshot : List Scanned) :
    es <+: (deliverAll room es snapshot).2 := by
  induction snapshot generalizing es with
  | nil => exact prefix_rfl
  | cons done rest ih =>
    refine List.IsPrefix.trans ?_ (ih _)
    rcases deliver_cases room done.triggered es done.registration with ⟨hsame, _⟩
      | ⟨_, _, hsame | ⟨_, hmore⟩⟩
    · rw [hsame]
    · rw [hsame]
    · rw [hmore]
      exact prefix_append _ _

theorem deliverAll_grows (es : List Event) (snapshot : List Scanned) :
    List.Forall₂ Grows (snapshot.map Scanned.registration) (deliverAll room es snapshot).1 := by
  induction snapshot generalizing es with
  | nil => exact .nil
  | cons done rest ih => exact .cons (deliver_grows room es done) (ih _)

variable {snapshot : List Scanned}

theorem deliverAll_marks (h : (deliverAll room es snapshot).2 ≠ es) :
    Marks (snapshot.map Scanned.registration) (deliverAll room es snapshot).1 := by
  induction snapshot generalizing es with
  | nil => exact absurd rfl h
  | cons done rest ih =>
    simp only [deliverAll, map_cons] at h ⊢
    rcases deliver_cases room done.triggered es done.registration with ⟨hsame, _⟩
      | ⟨_, hmarked, hsame | ⟨hnews, _⟩⟩
    · rw [hsame] at h ⊢
      exact (ih h).cons _ _
    · rw [hsame] at h ⊢
      exact (ih h).cons _ _
    · rw [hmarked]
      refine marks_head ?_
      rwa [news_and_not]

/-- Deliveries that tell nothing mark all that is new. -/
theorem deliverAll_of_nil (hroom : 0 < room) (h : (deliverAll room [] snapshot).2 = []) :
    (deliverAll room [] snapshot).1 =
      snapshot.map fun done ↦
        done.registration.marked (news done.triggered done.registration.reported) := by
  induction snapshot with
  | nil => rfl
  | cons done rest ih =>
    simp only [deliverAll, map_cons] at h ⊢
    rcases deliver_cases room done.triggered [] done.registration with ⟨hsame, hzero | hfull⟩ |
      ⟨_, hmarked, hsame | ⟨_, hmore⟩⟩
    · rw [hsame] at h ⊢
      rw [ih h, hzero, news_zero]
      simp [marked]
    · simp only [length_nil] at hfull
      omega
    · rw [hsame] at h
      rw [hmarked, hsame, ih h]
    · have hprefix := deliverAll_prefix room (deliver room done.triggered [] done.registration).2 rest
      rw [h, hmore] at hprefix
      simp at hprefix

end Round

/-! ## Progress -/

/-- Where what passes the wider test first passes the narrower one too, the first that pass
are the same. -/
theorem take_filter_eq {α : Type} {narrow wide : α → Bool} (himp : ∀ v, narrow v = true → wide v = true)
    (values : List α) {n : ℕ} (h : ∀ v ∈ (values.filter wide).take n, narrow v = true) :
    (values.filter narrow).take n = (values.filter wide).take n := by
  induction values generalizing n with
  | nil => rfl
  | cons v rest ih =>
    by_cases hwide : wide v = true
    · cases n with
      | zero => rfl
      | succ n =>
        rw [filter_cons_of_pos hwide, take_succ_cons] at h ⊢
        rw [filter_cons_of_pos (h v mem_cons_self), take_succ_cons,
          ih fun j hj ↦ h j (mem_cons_of_mem _ hj)]
    · rw [filter_cons_of_neg hwide] at h ⊢
      rw [filter_cons_of_neg fun hnarrow ↦ hwide (himp v hnarrow)]
      exact ih h

variable {reg : Registration}

theorem polls_of_lasting (h : reg.lasting = true) : reg.polls = true := by
  unfold lasting at h
  unfold polls
  split at h
  · simp only [decide_eq_true_eq, exhausted_iff, BitVec.getLsbD_or] at h ⊢
    grind
  · cases h

/-- A socket of which all that the poll says is marked. -/
theorem lasting_of_told (hpolls : reg.polls = true)
    (hnews : news (Scanned.triggered ⟨reg, some (wanted reg.events reg.reported)⟩)
      reg.reported = 0) : reg.lasting = true := by
  unfold polls at hpolls
  unfold lasting
  unfold Scanned.triggered at hnews
  split at hpolls
  · next cond hsource =>
    simp only [hsource, news_eq_zero_iff, getLsbD_answer, getLsbD_wanted_zero, getLsbD_wanted_one] at hnews
    simp only [decide_eq_true_eq, exhausted_iff, BitVec.getLsbD_or, getLsbD_conditions] at hpolls ⊢
    grind
  · cases hpolls

/-- What the poll says of such a socket is its trouble. -/
theorem troubled_iff
    (hnews : news (Scanned.triggered ⟨reg, some (wanted reg.events reg.reported)⟩) reg.reported = 0) :
    reg.troubled = true ↔ Scanned.triggered ⟨reg, some (wanted reg.events reg.reported)⟩ ≠ 0 := by
  unfold Scanned.triggered at hnews ⊢
  unfold troubled
  cases hsource : reg.source with
  | socket cond =>
    simp only [hsource, news_eq_zero_iff, getLsbD_answer, getLsbD_wanted_zero, getLsbD_wanted_one] at hnews
    simp only [decide_eq_true_eq, ne_eq, Poll.and_error, Poll.and_hangup, answer_eq_zero_iff,
      getLsbD_wanted_zero, getLsbD_wanted_one]
    grind
  | reader | writer => simp

namespace Waiting

variable {room : ℕ} {ws final : Waiting} {es : List Event}

/-- The snapshot has room for all sockets, or for as many as a poll takes. -/
theorem take_reserve {α : Type} (values : List α) {registered : ℕ} (h : values.length ≤ registered)
    (cap : ℕ) :
    values.take (min (reserve cap registered) Poll.maxPoll) = values.take Poll.maxPoll := by
  have hreserve : min registered Poll.maxPoll ≤ reserve cap registered := by
    unfold reserve
    split <;> omega
  rcases Nat.lt_or_ge (reserve cap registered) Poll.maxPoll with hlt | hle
  · rw [take_of_length_le (by omega), take_of_length_le (by omega)]
  · rw [Nat.min_eq_right hle]

/-- Where all that the poll says is marked, the entries are the sockets that stay in the poll. -/
theorem entries_of_told
    (h : ∀ done ∈ (ws.look room).1, news done.triggered done.registration.reported = 0) :
    (ws.look room).1.filter (fun done ↦ done.requested.isSome) =
      ((ws.registrations.filter lasting).take Poll.maxPoll).map fun reg ↦
        ⟨reg, some (wanted reg.events reg.reported)⟩ := by
  have hpolled := polled_scan (min (reserve ws.capacity ws.registrations.length) Poll.maxPoll) room 0 []
    ws.registrations
  rw [Nat.sub_zero, take_reserve _ (length_filter_le _ _)] at hpolled
  rw [take_filter_eq (fun _ ↦ polls_of_lasting)]
  · exact hpolled
  · intro reg hreg
    refine lasting_of_told (of_mem_filter (mem_of_mem_take hreg)) (h ⟨reg, _⟩ ?_)
    refine mem_of_mem_filter (hpolled ▸ mem_map_of_mem hreg)

/-- The waiter sleeps only where no socket that stays has trouble. -/
theorem settles_of_asleep (h : ws.round room = none) : Settles ws.registrations := by
  simp only [round, ite_eq_left_iff, reduceCtorEq, imp_false, not_not] at h
  have htold : ∀ done ∈ (ws.look room).1, news done.triggered done.registration.reported = 0 := by
    intro done hscanned
    rw [h.2 done hscanned, news_zero]
  have hentries := entries_of_told htold
  intro reg hreg
  have hmem := mem_of_mem_filter (hentries ▸ mem_map_of_mem hreg)
  have htrouble := troubled_iff (htold _ hmem)
  rw [Bool.eq_false_iff]
  exact fun htroubled ↦ htrouble.mp htroubled (h.2 _ hmem)

theorem grows_of_round (h : ws.round room = some (es, final)) :
    List.Forall₂ Grows ws.registrations final.registrations := by
  simp only [round, Option.ite_none_left_eq_some, Option.some.injEq, Prod.mk.injEq] at h
  obtain ⟨_, rfl, rfl⟩ := h
  exact grows_trans (scan_grows 0 [] ws.registrations) (deliverAll_grows _ _)

theorem unmarked_of_round (h : ws.round room = some (es, final))
    (hprogress : es ≠ [] ∨ Marks ws.registrations final.registrations) :
    unmarked final.registrations < unmarked ws.registrations := by
  rcases hprogress with hevents | hmarks
  · simp only [round, Option.ite_none_left_eq_some, Option.some.injEq, Prod.mk.injEq] at h
    obtain ⟨_, rfl, rfl⟩ := h
    have hlook : List.Forall₂ Grows ws.registrations ((ws.look room).1.map Scanned.registration) :=
      scan_grows 0 [] ws.registrations
    have hdeliver : List.Forall₂ Grows _ (deliverAll room (ws.look room).2 (ws.look room).1).1 :=
      deliverAll_grows _ _
    by_cases hlooked : (ws.look room).2 = []
    · have hmarks : Marks _ (deliverAll room (ws.look room).2 (ws.look room).1).1 :=
        deliverAll_marks (hlooked ▸ hevents)
      exact (unmarked_lt hdeliver hmarks).trans_le (unmarked_le hlook)
    · exact (unmarked_le hdeliver).trans_lt (unmarked_lt hlook (scan_marks hlooked))
  · exact unmarked_lt (grows_of_round h) hmarks

/-- A round that returns and does nothing has met a socket with trouble that stays. -/
theorem not_settles_of_idle (hroom : 0 < room) (h : ws.round room = some ([], final))
    (hidle : ¬Marks ws.registrations final.registrations) : ¬Settles ws.registrations := by
  simp only [round, Option.ite_none_left_eq_some, Option.some.injEq, Prod.mk.injEq] at h
  obtain ⟨hawake, hevents, rfl⟩ := h
  have hlook : (ws.look room).2 = [] := by
    have hprefix := deliverAll_prefix room (ws.look room).2 (ws.look room).1
    rw [hevents] at hprefix
    exact prefix_nil.mp hprefix
  have hregs : (ws.look room).1.map Scanned.registration = ws.registrations := scan_registrations hlook
  rw [hlook] at hevents hidle
  rw [deliverAll_of_nil hroom hevents] at hidle
  have htold : ∀ done ∈ (ws.look room).1, news done.triggered done.registration.reported = 0 := by
    intro done hscanned
    by_contra hnews
    obtain ⟨bit, hbit⟩ := Flags.ne_zero_iff.mp hnews
    obtain ⟨i, hindex⟩ := getElem?_of_mem hscanned
    refine hidle ⟨i, bit, done.registration, _, ?_, by rw [getElem?_map, hindex, Option.map_some], ?_, ?_⟩
    · rw [← hregs, getElem?_map, hindex, Option.map_some]
    · rw [← news_and_not, BitVec.getLsbD_and, BitVec.getLsbD_not] at hbit
      grind
    · rw [marked, BitVec.getLsbD_or, hbit, Bool.or_true]
  obtain ⟨done, hscanned, htriggered⟩ : ∃ done ∈ (ws.look room).1, done.triggered ≠ 0 := by
    by_contra hsilent
    refine hawake ⟨hlook, fun done hscanned ↦ ?_⟩
    by_contra htriggered
    exact hsilent ⟨done, hscanned, htriggered⟩
  have hrequested : done.requested.isSome := by
    cases hnone : done.requested with
    | some _ => rfl
    | none =>
      exact absurd (triggered_of_none hnone) htriggered
  have hmem : done ∈ (ws.look room).1.filter fun done ↦ done.requested.isSome :=
    mem_filter.mpr ⟨hscanned, hrequested⟩
  rw [entries_of_told htold] at hmem
  obtain ⟨reg, hreg, rfl⟩ := mem_map.mp hmem
  intro hsettles
  have htroubled := (troubled_iff (htold _ hscanned)).mpr htriggered
  rw [hsettles reg hreg] at htroubled
  cases htroubled

theorem settles_of_rounds {n : ℕ} (h : Rounds ws n final) :
    Settles final.registrations ↔ Settles ws.registrations := by
  induction h with
  | none => exact Iff.rfl
  | more _ _ hround ih => exact (settles_iff (grows_of_round hround)).trans ih

/-- Each round that does something leaves fewer marks to set. -/
theorem unmarked_of_rounds {n : ℕ} (hsettles : Settles ws.registrations) (h : Rounds ws n final) :
    n + unmarked final.registrations ≤ unmarked ws.registrations := by
  induction h with
  | none => exact (Nat.zero_add _).le
  | @more n room middle final es hrounds hroom hround ih =>
    have hprogress : es ≠ [] ∨ Marks middle.registrations final.registrations := by
      by_contra hidle
      rw [not_or, not_not] at hidle
      obtain ⟨rfl, hmarks⟩ := hidle
      exact not_settles_of_idle hroom hround hmarks ((settles_of_rounds hrounds).mpr hsettles)
    have hlt := unmarked_of_round hround hprogress
    omega

/-- The rounds of an undisturbed waiter all do something, and come to an end, exactly where no
socket that stays in the poll has an error or a hang-up. -/
theorem progress_iff (ws : Waiting) :
    ((∀ n middle, Rounds ws n middle → ∀ room es final, 0 < room → middle.round room = some (es, final) →
        ¬middle.Silent room → es ≠ [] ∨ Marks middle.registrations final.registrations) ∧
      ∃ bound, ∀ n middle, Rounds ws n middle → n ≤ bound) ↔ Settles ws.registrations := by
  refine ⟨fun ⟨_, bound, hbound⟩ ↦ ?_,
    fun hsettles ↦ ⟨fun n middle hrounds room es final hroom hround _ ↦ ?_,
    unmarked ws.registrations, fun n middle hrounds ↦ ?_⟩⟩
  · by_contra hsettles
    -- A waiter that never sleeps makes more rounds than there is a bound for.
    have hrounds : ∀ n, ∃ middle, Rounds ws n middle := by
      intro n
      induction n with
      | zero => exact ⟨ws, .none⟩
      | succ n ih =>
        obtain ⟨middle, hmiddle⟩ := ih
        cases hround : middle.round 1 with
        | none => exact absurd ((settles_of_rounds hmiddle).mp (settles_of_asleep hround)) hsettles
        | some result => exact ⟨result.2, hmiddle.more Nat.one_pos hround⟩
    obtain ⟨middle, hmiddle⟩ := hrounds (bound + 1)
    exact absurd (hbound _ _ hmiddle) (by omega)
  · by_contra hidle
    rw [not_or, not_not] at hidle
    obtain ⟨rfl, hmarks⟩ := hidle
    exact not_settles_of_idle hroom hround hmarks ((settles_of_rounds hrounds).mpr hsettles)
  · have hle := unmarked_of_rounds hsettles hrounds
    omega

/-- A socket that is read and has an error: it is told once, and then the waiter goes
round without end. -/
theorem idle_rounds :
    let before : Waiting := ⟨0, [⟨0, .socket Poll.error, 7, SocketEvents.read, 0⟩]⟩
    let after : Waiting := ⟨17, [⟨0, .socket Poll.error, 7, SocketEvents.read, SocketEvents.error⟩]⟩
    before.round 1 = some ([⟨7, SocketEvents.error⟩], after) ∧ after.round 1 = some ([], after) ∧
      ¬after.Silent 1 := by
  decide

end Waiting

end DotnetPal.Native.EventPort
