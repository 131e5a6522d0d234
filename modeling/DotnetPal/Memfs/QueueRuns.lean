import DotnetPal.Foundations.Flags
import DotnetPal.Foundations.Machines
import DotnetPal.Boundary.FrontEnds
import DotnetPal.Memfs.QueueSound

/-!
# Queues over whole runs

A queue takes events and hands them out again, in any order of the calls and with any answers of the
allocator. The log of a stream notes what its queue did. A reader gets what was accepted, in order,
a loss is reported by an overflow behind it, and the report of a loss finds its memory reserved.
-/

open DotnetPal.Programs List

namespace DotnetPal.Memfs

open Queue

/-! ## Events a consumer can act on -/

/-- The record that tells a reader of a loss. -/
def overflowReport : Offer := ⟨0, Watches.overflow, 0, []⟩

/-- The kinds of event a watch reports, the mark of a directory apart. -/
def plainKinds : UInt32 := requestable ||| Watches.removed

variable {o : Offer}

namespace Offer

/-- The event claims a loss. -/
def Overflows (offer : Offer) : Prop := offer.events &&& Watches.overflow ≠ 0

instance (offer : Offer) : Decidable offer.Overflows := inferInstanceAs (Decidable (_ ≠ _))

/-- An event about a watch, of a kind a watch reports and of no other kind. -/
structure Reportable (offer : Offer) : Prop where
  watch : offer.watch ≠ 0
  kind : offer.events &&& plainKinds ≠ 0
  known : offer.events &&& ~~~(plainKinds ||| Watches.directory) = 0

/-- The event as the memory of a reader holds it: the name in 256 bytes that were zero. -/
def written (offer : Offer) : Boundary.WatchEvent where
  watch := offer.watch.toNat
  events := offer.events.toBitVec
  cookie := offer.cookie.toNat
  nameLength := offer.name.length
  name := (offer.name ++ replicate 256 0).take 256
  size := by
    rw [length_take, length_append, length_replicate]
    omega

/-- The event a reader gets for a record. -/
def read (record : Offer) : Offer := delivered record.watch record.events record.cookie record.name

theorem read_overflowReport : overflowReport.read = overflowReport := rfl

theorem overflowReport_overflows : overflowReport.Overflows := by decide

theorem Reportable.not_overflows (h : o.Reportable) : ¬o.Overflows := by
  rw [Overflows, not_not, ← UInt32.toBitVec_inj]
  exact Flags.and_eq_zero_of_within (UInt32.toBitVec_inj.mpr h.known) (by decide)

/-- A reportable event with an entry name is one a consumer can act on. -/
theorem Reportable.valid (h : o.Reportable) (hlen : o.name.length ≤ Files.maxEntryName)
    (hbytes : ∀ byte ∈ o.name, byte ≠ 0 ∧ byte ≠ 47) : o.written.Valid := by
  have hshort : o.name.length < 256 := Nat.lt_succ_of_le hlen
  have hwatch : o.written.watch ≠ 0 := fun hzero ↦ h.watch (UInt32.toNat_inj.mp hzero)
  have hoverflow : o.written.events &&& Boundary.watchOverflow = 0 :=
    UInt32.toBitVec_inj.mpr (not_not.mp h.not_overflows)
  refine ⟨?_, ?_, iff_of_false hwatch (not_not.mpr hoverflow), hlen, ?_, ?_⟩
  · rw [BitVec.and_assoc]
    exact fun hzero ↦ h.kind (UInt32.toBitVec_inj.mp (Flags.and_eq_zero_of_within hzero (by decide)))
  · exact Flags.and_eq_zero_of_within (UInt32.toBitVec_inj.mpr h.known) (by decide)
  · simp only [written]
    rw [getElem?_take_of_lt hshort, getElem?_append_right le_rfl, Nat.sub_self]
    rfl
  · simp only [written]
    rwa [take_take, Nat.min_eq_left hshort.le, take_left]

/-- The front end hands out what a reader gets for a reportable event or for a loss. -/
theorem written_not_broken (h : o.Reportable ∨ o = overflowReport) : o.read.written.broken = false := by
  rcases h with h | rfl
  · unfold read delivered
    split
    · decide
    · rename_i hname
      rw [not_or, Nat.not_lt] at hname
      exact (h.valid hname.1 (by simpa using hname.2)).not_broken
  · decide

end Offer

/-! ## Streams -/

/-- What a queue does, as its stream notes it. -/
inductive Heard where
  | accepted (offer : Offer)
  /-- A push that finds no room. -/
  | dropped (offer : Offer)
  /-- The record of a loss. -/
  | reported
  | popped (event : Offer)
  deriving DecidableEq, Repr

/-- A queue with the log of what it did, oldest first. -/
structure EventStream where
  queue : Queue
  log : List Heard

/-- The queue has room for the event, or the allocator finds it. -/
def Queue.accepts (queue : Queue) (grant : Option ℕ) (offer : Offer) : Bool :=
  queue.count < queueLimit && (queue.bytes.tryReserve (2 * header + offer.name.length) grant).isSome

namespace EventStream

/-- A push with the allocator's answer should the queue have to grow, or a pop with the answer
should it shrink. -/
inductive Action where
  | push (offer : Offer) (grant : Option ℕ)
  | pop (fresh : Option ℕ)

/-- What a push adds to the log. -/
def pushed (queue : Queue) (grant : Option ℕ) (offer : Offer) : List Heard :=
  if queue.accepts grant offer then [.accepted offer]
  else if queue.lost then [.dropped offer] else [.reported, .dropped offer]

/-- A pop that failed would leave no state. -/
def next : Action → EventStream → Option EventStream
  | .push offer grant, ⟨queue, log⟩ =>
    if offer.name.length ≤ Files.maxEntryName then
      some ⟨queue.push grant offer, log ++ pushed queue grant offer⟩
    else none
  | .pop fresh, ⟨queue, log⟩ =>
    match queue.pop fresh with
    | .ok (some event, final) => some ⟨final, log ++ [.popped event]⟩
    | .ok (none, final) => some ⟨final, log⟩
    | .error _ => none

/-- Pushes and pops in any order, from a new queue. -/
def machine (queue : Queue) : Machine EventStream Action := ⟨⟨queue, []⟩, next⟩

/-- Every record the queue took, oldest first: the accepted events and the reports of losses. -/
def taken (log : List Heard) : List Offer :=
  log.filterMap fun heard ↦ match heard with
    | .accepted offer => some offer
    | .reported => some overflowReport
    | _ => none

/-- Every event a reader got, oldest first. -/
def popped (log : List Heard) : List Offer :=
  log.filterMap fun heard ↦ match heard with
    | .popped event => some event
    | _ => none

@[simp]
theorem taken_append (log more : List Heard) : taken (log ++ more) = taken log ++ taken more :=
  filterMap_append

@[simp]
theorem popped_append (log more : List Heard) : popped (log ++ more) = popped log ++ popped more :=
  filterMap_append

end EventStream

/-! ## What one call does -/

namespace Queue

variable {queue : Queue} {records : List Offer} {o : Offer} {grant : Option ℕ}

/-- An accepted event is recorded in memory that leaves room for the record of a loss. -/
theorem push_of_accepts (h : queue.accepts grant o = true) :
    queue.count < queueLimit ∧ ∃ bytes : Vec UInt8, bytes.data = queue.bytes.data ∧
      queue.bytes.data.length + (2 * header + o.name.length) ≤ bytes.capacity ∧
      queue.push grant o = ({ queue with bytes := bytes }.record o).noted o true := by
  simp only [accepts, Bool.and_eq_true, decide_eq_true_eq, Option.isSome_iff_exists] at h
  obtain ⟨hn, bytes, hbytes⟩ := h
  refine ⟨hn, bytes, Vec.tryReserve_data hbytes, Vec.tryReserve_room hbytes, ?_⟩
  unfold push
  rw [if_neg (Nat.not_le.mpr hn), hbytes]

theorem push_of_not_accepts (h : queue.accepts grant o = false) :
    queue.push grant o = queue.lose.noted o false := by
  unfold push
  split
  · rfl
  · rename_i hn
    rw [accepts, decide_eq_true (Nat.not_le.mp hn), Bool.true_and, Option.isSome_eq_false_iff,
      Option.isNone_iff_eq_none] at h
    rw [h]

theorem length_encode (o : Offer) : (encode o).length = header + o.name.length := by
  simp [encode, wordBytes, header]
  omega

/-- The memory a queue keeps after a read has room for the record of a loss if the read
left such room. -/
theorem room_shrunk {bytes : Vec UInt8} {n : ℕ} (fresh : Option ℕ)
    (h : bytes.data.length + header ≤ bytes.capacity) (hempty : n = 0 → bytes.data = []) :
    (if n = 0 ∧ bytes.capacity > page then
      ((Vec.empty : Vec UInt8).tryReserve header fresh).getD bytes else bytes).data.length + header ≤
    (if n = 0 ∧ bytes.capacity > page then
      ((Vec.empty : Vec UInt8).tryReserve header fresh).getD bytes else bytes).capacity := by
  rw [data_shrunk fresh hempty]
  split
  · rename_i hshrink
    cases hfresh : (Vec.empty : Vec UInt8).tryReserve header fresh with
    | none => exact h
    | some reserved =>
      rw [hempty hshrink.1]
      exact Vec.tryReserve_room hfresh
  · exact h

/-- A read leaves the flag unless it took an overflow, and room for the record of a loss. -/
theorem Holds.pop_room (h : queue.Holds (o :: records)) (fresh : Option ℕ) :
    ∃ final, queue.pop fresh = .ok (some (delivered o.watch o.events o.cookie o.name), final) ∧
      final.Holds records ∧ final.lost = (if o.Overflows then false else queue.lost) ∧
      final.bytes.data.length + header ≤ final.bytes.capacity := by
  obtain ⟨final, hpop, hholds⟩ := h.pop fresh
  refine ⟨final, hpop, hholds, ?_⟩
  have hfront := front_encode (h.short o mem_cons_self) (records.flatMap encode)
  rw [← flatMap_cons, ← h.bytes_eq] at hfront
  have hn : queue.count ≠ 0 := by simp [h.count_eq]
  unfold Queue.pop at hpop
  rw [if_neg hn, hfront] at hpop
  cases hpop
  refine ⟨rfl, room_shrunk fresh ?_ fun hzero ↦ ?_⟩
  -- The record that left made room for the record of a loss.
  · have hfits := queue.bytes.fits
    rw [h.bytes_eq, flatMap_cons, length_append, length_encode] at hfits
    simp only [Vec.withData]
    omega
  · have hnil : records = [] := by
      apply eq_nil_of_length_eq_zero
      have hlen := h.count_eq
      rw [length_cons] at hlen
      omega
    simp [hnil]

end Queue

/-! ## The invariant of a run -/

namespace EventStream

/-- What a queue keeps up. `gone` are the records that were popped, `waiting` those that are queued. -/
structure Sound (w : EventStream) (gone waiting : List Offer) : Prop where
  taken_eq : taken w.log = gone ++ waiting
  popped_eq : popped w.log = gone.map Offer.read
  holds : w.queue.Holds waiting
  /-- The record of a loss has its memory until it is written. -/
  room : w.queue.lost = false → w.queue.bytes.data.length + header ≤ w.queue.bytes.capacity
  count_le : w.queue.count ≤ queueLimit + 1
  count_le_of_found : w.queue.lost = false → w.queue.count ≤ queueLimit
  pending : w.queue.lost = true → overflowReport ∈ waiting
  /-- A loss is read about, or its report waits. -/
  told : ∀ (i : ℕ) offer, w.log[i]? = some (Heard.dropped offer) →
    (∃ j : ℕ, i < j ∧ w.log[j]? = some (Heard.popped overflowReport)) ∨ overflowReport ∈ waiting
  known : ∀ record ∈ taken w.log, (record, true) ∈ w.queue.history ∨ record = overflowReport
  once : (∀ entry ∈ w.queue.history, ¬entry.1.Overflows) →
    waiting.countP (fun record ↦ record.Overflows) = if w.queue.lost then 1 else 0

variable {w final : EventStream} {gone waiting : List Offer}

/-- What was told stays told when the log grows and no report leaves the queue. -/
theorem told_append {log more : List Heard} {old new : List Offer}
    (htold : ∀ (i : ℕ) o, log[i]? = some (Heard.dropped o) →
      (∃ j : ℕ, i < j ∧ log[j]? = some (Heard.popped overflowReport)) ∨ overflowReport ∈ old)
    (hstay : overflowReport ∈ old → overflowReport ∈ new ∨ Heard.popped overflowReport ∈ more)
    (hnew : ∀ o, Heard.dropped o ∈ more → overflowReport ∈ new) :
    ∀ (i : ℕ) o, (log ++ more)[i]? = some (Heard.dropped o) →
      (∃ j : ℕ, i < j ∧ (log ++ more)[j]? = some (Heard.popped overflowReport)) ∨ overflowReport ∈ new := by
  intro i o hdropped
  by_cases hi : i < log.length
  · rw [getElem?_append_left hi] at hdropped
    rcases htold i o hdropped with ⟨j, hij, hj⟩ | hold
    · refine .inl ⟨j, hij, ?_⟩
      rw [List.getElem?_append_left ((List.getElem?_eq_some_iff.mp hj).1), hj]
    · rcases hstay hold with hafter | hmore
      · exact .inr hafter
      · obtain ⟨k, hk⟩ := mem_iff_getElem?.mp hmore
        refine .inl ⟨log.length + k, by omega, ?_⟩
        rw [getElem?_append_right (Nat.le_add_right _ _), Nat.add_sub_cancel_left, hk]
  · rw [getElem?_append_right (Nat.not_lt.mp hi)] at hdropped
    exact .inr (hnew o (mem_of_getElem? hdropped))

variable {grant : Option ℕ}

variable (h : w.Sound gone waiting)
include h

theorem Sound.push_accepted
    (hname : o.name.length ≤ Files.maxEntryName) (haccepts : w.queue.accepts grant o = true) :
    Sound ⟨w.queue.push grant o, w.log ++ [.accepted o]⟩ gone (waiting ++ [o]) := by
  obtain ⟨hn, bytes, hdata, hroom, hpush⟩ := push_of_accepts haccepts
  rw [hpush]
  have hholds : ({ w.queue with bytes := bytes } : Queue).Holds waiting :=
    ⟨hdata.trans h.holds.bytes_eq, h.holds.count_eq, h.holds.short⟩
  refine ⟨?_, ?_, (hholds.record hname).noted _ _, fun _ ↦ ?_, Nat.le_succ_of_le hn,
    fun _ ↦ hn, fun hlost ↦ ?_, ?_, fun record hrecord ↦ ?_, fun hnone ↦ ?_⟩
  · rw [taken_append, h.taken_eq, append_assoc]
    rfl
  · rw [popped_append, h.popped_eq]
    exact append_nil _
  · simp only [noted, record, Vec.extend, length_append, length_encode, hdata]
    omega
  · exact mem_append_left _ (h.pending hlost)
  · refine told_append h.told (fun hbefore ↦ .inl (mem_append_left _ hbefore)) fun o hmem ↦ ?_
    simp at hmem
  · rw [taken_append] at hrecord
    rcases mem_append.mp hrecord with hold | hnew
    · exact (h.known record hold).imp_left fun hmem ↦ mem_append_left _ hmem
    · obtain rfl : record = o := by simpa [taken] using hnew
      exact .inl (mem_append_right _ (mem_singleton.mpr rfl))
  · have hplain := hnone (o, true) (mem_append_right _ (mem_singleton.mpr rfl))
    rw [countP_append, h.once fun e he ↦ hnone e (mem_append_left _ he)]
    simp only [noted, record, hplain, countP_singleton, decide_false]
    rfl

variable (haccepts : w.queue.accepts grant o = false)
include haccepts

theorem Sound.push_dropped (hlost : w.queue.lost = true) :
    Sound ⟨w.queue.push grant o, w.log ++ [.dropped o]⟩ gone waiting := by
  have hpush : w.queue.push grant o = w.queue.noted o false := by
    rw [push_of_not_accepts haccepts, lose, if_pos hlost]
  rw [hpush]
  refine ⟨?_, ?_, h.holds.noted _ _, h.room, h.count_le, h.count_le_of_found, h.pending, ?_,
    fun record hrecord ↦ ?_, fun hnone ↦ ?_⟩
  · rw [taken_append, h.taken_eq]
    exact append_nil _
  · rw [popped_append, h.popped_eq]
    exact append_nil _
  · exact told_append h.told .inl fun _ _ ↦ h.pending hlost
  · rw [taken_append, show taken [.dropped o] = [] from rfl, append_nil] at hrecord
    exact (h.known record hrecord).imp_left fun hmem ↦ mem_append_left _ hmem
  · exact h.once fun e he ↦ hnone e (mem_append_left _ he)

/-- The first loss since the last report finds the memory of its record reserved. -/
theorem Sound.push_reported (hlost : w.queue.lost = false) :
    Sound ⟨w.queue.push grant o, w.log ++ [.reported, .dropped o]⟩ gone (waiting ++ [overflowReport]) := by
  have hpush : w.queue.push grant o =
      ({ w.queue with lost := true }.record overflowReport).noted o false := by
    rw [push_of_not_accepts haccepts, lose, if_neg (by simp [hlost])]
    rfl
  rw [hpush]
  have hholds : ({ w.queue with lost := true } : Queue).Holds waiting :=
    ⟨h.holds.bytes_eq, h.holds.count_eq, h.holds.short⟩
  have hmem : overflowReport ∈ waiting ++ [overflowReport] := mem_append_right _ (mem_singleton.mpr rfl)
  refine ⟨?_, ?_, (hholds.record (by decide)).noted _ _, (fun hx ↦ by cases hx),
    Nat.succ_le_succ (h.count_le_of_found hlost), (fun hx ↦ by cases hx), fun _ ↦ hmem, ?_,
    fun record hrecord ↦ ?_, fun hnone ↦ ?_⟩
  · rw [taken_append, h.taken_eq, append_assoc]
    rfl
  · rw [popped_append, h.popped_eq]
    exact append_nil _
  · exact told_append h.told (fun hbefore ↦ .inl (mem_append_left _ hbefore)) fun _ _ ↦ hmem
  · rw [taken_append, show taken [.reported, .dropped o] = [overflowReport] from rfl] at hrecord
    rcases mem_append.mp hrecord with hold | hnew
    · exact (h.known record hold).imp_left fun hmem ↦ mem_append_left _ hmem
    · exact .inr (mem_singleton.mp hnew)
  · have honce := h.once fun e he ↦ hnone e (mem_append_left _ he)
    rw [hlost] at honce
    rw [countP_append, honce]
    rfl

/-- A dropped push leaves the memory as it is. -/
theorem Sound.capacity_dropped :
    (w.queue.push grant o).bytes.capacity = w.queue.bytes.capacity := by
  rw [push_of_not_accepts haccepts, lose]
  split
  · rfl
  · rename_i hlost
    apply Vec.capacity_extend_of_room
    rw [length_encode]
    exact h.room (by simpa using hlost)

omit haccepts

theorem Sound.push (hname : o.name.length ≤ Files.maxEntryName) :
    ∃ more, Sound ⟨w.queue.push grant o, w.log ++ pushed w.queue grant o⟩ gone (waiting ++ more) := by
  unfold pushed
  cases haccepts : w.queue.accepts grant o with
  | true => exact ⟨[o], h.push_accepted hname haccepts⟩
  | false =>
    cases hlost : w.queue.lost with
    | true => exact ⟨[], by simpa using h.push_dropped haccepts hlost⟩
    | false => exact ⟨[overflowReport], h.push_reported haccepts hlost⟩

omit h in
/-- A pop hands out the oldest record; the memory of the record of a loss is there again at
         the latest when that record leaves. -/
theorem Sound.pop {record : Offer} (h : w.Sound gone (record :: waiting)) (fresh : Option ℕ) :
    ∃ final, w.queue.pop fresh = .ok (some record.read, final) ∧
      Sound ⟨final, w.log ++ [.popped record.read]⟩ (gone ++ [record]) waiting := by
  obtain ⟨final, hpop, hholds, hlost, hroom⟩ := h.holds.pop_room fresh
  have hhistory := history_pop hpop
  have hn : final.count + 1 = w.queue.count := by rw [hholds.count_eq, h.holds.count_eq, length_cons]
  have hle := h.count_le
  have hlt : final.count ≤ queueLimit := by omega
  refine ⟨final, hpop, ?_, ?_, hholds, fun _ ↦ hroom, Nat.le_succ_of_le hlt,
    fun _ ↦ hlt, fun hfinal ↦ ?_, ?_, ?_, fun hnone ↦ ?_⟩
  · rw [taken_append, h.taken_eq, append_assoc gone [record]]
    exact append_nil _
  · rw [popped_append, h.popped_eq, map_append]
    rfl
  · -- The flag is still set, so the record was no overflow.
    change final.lost = true at hfinal
    rw [hlost] at hfinal
    split at hfinal
    · cases hfinal
    · rename_i hplain
      rcases mem_cons.mp (h.pending hfinal) with heq | hmem
      · rw [← heq] at hplain
        exact absurd Offer.overflowReport_overflows hplain
      · exact hmem
  · refine told_append h.told (fun hold ↦ ?_) fun o hmem ↦ ?_
    · rcases mem_cons.mp hold with heq | hmem
      · exact .inr (by rw [← heq, Offer.read_overflowReport]; exact mem_singleton.mpr rfl)
      · exact .inl hmem
    · simp at hmem
  · intro j hj
    rw [taken_append, show taken [.popped record.read] = [] from rfl, append_nil] at hj
    rw [hhistory]
    exact h.known j hj
  · change (∀ e ∈ final.history, _) at hnone
    rw [hhistory] at hnone
    have honce := h.once hnone
    rw [countP_cons] at honce
    change countP _ waiting = if final.lost = true then 1 else 0
    rw [hlost]
    by_cases hrecord : record.Overflows
    · simp only [hrecord, decide_true, if_true] at honce ⊢
      split at honce <;> simp_all
    · simpa [hrecord] using honce

omit h in
theorem Sound.pop_nil (h : w.Sound gone []) (fresh : Option ℕ) : w.queue.pop fresh = .ok (none, w.queue) :=
  h.holds.pop_nil fresh

/-- Every call keeps the invariant. -/
theorem Sound.next {action : Action} (hnext : next action w = some final) :
    ∃ gone waiting, final.Sound gone waiting := by
  cases action with
  | push o grant =>
    simp only [EventStream.next] at hnext
    split at hnext
    · rename_i hname
      cases hnext
      obtain ⟨more, hmore⟩ := h.push hname
      exact ⟨gone, waiting ++ more, hmore⟩
    · cases hnext
  | pop fresh =>
    simp only [EventStream.next] at hnext
    cases waiting with
    | nil =>
      rw [h.pop_nil fresh] at hnext
      cases hnext
      exact ⟨gone, [], h⟩
    | cons record waiting =>
      obtain ⟨queue, hpop, hs⟩ := h.pop fresh
      rw [hpop] at hnext
      cases hnext
      exact ⟨_, _, hs⟩

omit h

theorem sound_new {queue : Queue} (h : new grant = .ok queue) : Sound ⟨queue, []⟩ [] [] := by
  obtain ⟨hholds, hhistory⟩ := new_holds h
  have hroom : queue.lost = false ∧ queue.bytes.data.length + header ≤ queue.bytes.capacity := by
    unfold new at h
    split at h
    · rename_i bytes hbytes
      cases h
      refine ⟨rfl, ?_⟩
      rw [Vec.tryReserve_data hbytes]
      exact Vec.tryReserve_room hbytes
    · cases h
  have hn : queue.count = 0 := hholds.count_eq
  refine ⟨rfl, rfl, hholds,
    fun _ ↦ hroom.2, by simp [hn], fun _ ↦ by simp [hn], fun hlost ↦ ?_, ?_, ?_, fun _ ↦ ?_⟩
  · rw [hroom.1] at hlost
    cases hlost
  · simp
  · simp [taken]
  · simp [hroom.1]

/-- The log and the queue of a stream agree. -/
def Reliable (w : EventStream) : Prop := ∃ gone waiting, w.Sound gone waiting

theorem reliable_of_reachable {queue : Queue} (hnew : new grant = .ok queue)
    (h : (machine queue).runs.Reachable w) : w.Reliable := by
  refine Machine.invariant ⟨[], [], sound_new hnew⟩ ?_ h
  rintro action old final - ⟨gone, waiting, hs⟩ hnext
  exact hs.next hnext

/-! ## What a reader gets -/

/-- In every interleaving of pushes and pops, with any answers of the allocator: no pop fails,
the popped events are the accepted ones and the reports of losses in order, at most
`queueLimit + 1` records are queued, a set flag has its report in the queue, every dropped push
is followed by a popped overflow or has one waiting, and a drop needs no new memory. Where the
pushes are events a watch reports, the flag is set exactly while one overflow waits, and every
popped event passes the front end. -/
theorem queue_of_reachable {queue : Queue} {grant : Option ℕ} (hnew : new grant = .ok queue)
    (h : (machine queue).runs.Reachable w) :
    ∃ waiting : List Offer, w.queue.Holds waiting ∧
      (taken w.log).map Offer.read = popped w.log ++ waiting.map Offer.read ∧
      (∀ fresh, ∃ final, w.queue.pop fresh = .ok (waiting.head?.map Offer.read, final)) ∧
      w.queue.count = waiting.length ∧ w.queue.count ≤ queueLimit + 1 ∧
      (w.queue.lost = true → overflowReport ∈ waiting) ∧
      (∀ (i : ℕ) o, w.log[i]? = some (Heard.dropped o) →
        (∃ j : ℕ, i < j ∧ w.log[j]? = some (Heard.popped overflowReport)) ∨ overflowReport ∈ waiting) ∧
      (∀ o grant, w.queue.accepts grant o = false →
        (w.queue.push grant o).bytes.capacity = w.queue.bytes.capacity) ∧
      ((∀ entry ∈ w.queue.history, entry.1.Reportable) →
        waiting.countP (fun record ↦ record.Overflows) = (if w.queue.lost then 1 else 0) ∧
        ∀ event ∈ popped w.log, (Boundary.watchRead (.ok ()) event.written) =
          ⟨true, .ok (), event.written⟩) := by
  obtain ⟨gone, waiting, hsound⟩ := reliable_of_reachable hnew h
  refine ⟨waiting, hsound.holds, ?_, fun fresh ↦ ?_, hsound.holds.count_eq, hsound.count_le, hsound.pending,
    hsound.told, fun o grant haccepts ↦ hsound.capacity_dropped haccepts, fun hreportable ↦ ⟨?_, ?_⟩⟩
  · rw [hsound.taken_eq, hsound.popped_eq, map_append]
  · cases waiting with
    | nil => exact ⟨w.queue, hsound.pop_nil fresh⟩
    | cons record waiting =>
      obtain ⟨final, hpop, -⟩ := hsound.pop fresh
      exact ⟨final, hpop⟩
  · exact hsound.once fun entry hentry ↦ (hreportable entry hentry).not_overflows
  · intro event hevent
    rw [hsound.popped_eq] at hevent
    obtain ⟨record, hrecord, rfl⟩ := mem_map.mp hevent
    have hknown := hsound.known record (hsound.taken_eq ▸ mem_append_left _ hrecord)
    have hbroken := Offer.written_not_broken (hknown.imp_left fun hmem ↦ hreportable _ hmem)
    simp [Boundary.watchRead, hbroken, Boundary.record]

/-- A queue with memory for the report of a loss only. -/
def smallest : Queue := ⟨⟨[], 13, by decide⟩, 0, false, []⟩

/-- Two files are created and there is memory for one event: it is read, and the report of
the loss waits. -/
theorem queue_of_reachable_oneLoss : ∃ w, (machine smallest).runs.Reachable w ∧
    w.log = [.accepted ⟨1, Watches.create, 0, [97]⟩, .reported, .dropped ⟨1, Watches.create, 0, [98]⟩,
      .popped ⟨1, Watches.create, 0, [97]⟩] ∧
    w.queue.lost = true ∧ w.queue.Holds [overflowReport] := by
  have hnew : new (some 0) = .ok smallest := rfl
  have hrun : (machine smallest).run [.push ⟨1, Watches.create, 0, [97]⟩ (some 0),
    .push ⟨1, Watches.create, 0, [98]⟩ none, .pop none] (machine smallest).start = some _ := rfl
  have hreach := Machine.reachable_of_run hrun
  obtain ⟨waiting, hholds, -, -, hcount, -, hpending, -⟩ := queue_of_reachable hnew hreach
  obtain ⟨record, rfl⟩ := length_eq_one_iff.mp hcount.symm
  rw [← mem_singleton.mp (hpending rfl)] at hholds
  exact ⟨_, hreach, rfl, rfl, hholds⟩

/-- A queue hands on the kinds it is given: an event of no kind is broken for the front end, and a
pushed overflow waits although nothing was lost. -/
theorem unreportable_events : new (some 0) = .ok smallest ∧ (∃ w, (machine smallest).runs.Reachable w ∧
      (popped w.log).map (fun event ↦ (Boundary.watchRead (.ok ()) event.written).status) = [.error .os]) ∧
    ∃ w, (machine smallest).runs.Reachable w ∧ w.queue.Holds [⟨0, Watches.overflow, 0, []⟩] ∧
      w.queue.lost = false := by
  have hkindless : (machine smallest).run [.push ⟨1, 0, 0, [97]⟩ (some 0), .pop none]
    (machine smallest).start =
    some _ := rfl
  have hoverflow : (machine smallest).run [.push ⟨0, Watches.overflow, 0, []⟩ (some 0)]
    (machine smallest).start =
    some _ := rfl
  refine ⟨rfl, ⟨_, Machine.reachable_of_run hkindless, rfl⟩, _, Machine.reachable_of_run hoverflow,
    ⟨rfl, rfl, ?_⟩, rfl⟩
  decide

end EventStream

end DotnetPal.Memfs
