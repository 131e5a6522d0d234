import Mathlib.Tactic.IntervalCases
import DotnetPal.Memfs.Queue

/-!
# Queues hold whole records

The bytes of a queue are the records of its events one after another, so a reader that takes the
oldest one finds it whole, and what it leaves is again whole records.
-/

open List

namespace DotnetPal.Memfs

namespace Queue

/-! ## Records -/

theorem wordOf_wordBytes (word : UInt32) : wordOf (wordBytes word) = word := by
  simp only [wordOf, wordBytes, foldr]
  apply UInt32.eq_of_toBitVec_eq
  simp only [UInt32.toBitVec_or, UInt32.toBitVec_shiftLeft, UInt8.toBitVec_toUInt32,
    UInt32.toBitVec_toUInt8, UInt32.toBitVec_shiftRight]
  -- Each bit comes from exactly one of the four bytes.
  apply BitVec.eq_of_getLsbD_eq
  intro i hindex
  interval_cases i <;> simp

/-- The record at the front is read back, with what comes after it. -/
theorem front_encode {offer : Offer} (hname : offer.name.length ≤ Files.maxEntryName) (rest : Bytes) :
    front (encode offer ++ rest) = some ((offer.watch, offer.events, offer.cookie, offer.name), rest) := by
  obtain ⟨watch, events, cookie, name⟩ := offer
  have hlen : (UInt8.ofNat name.length).toNat = name.length := by
    rw [UInt8.toNat_ofNat']
    exact Nat.mod_eq_of_lt (Nat.lt_of_le_of_lt hname (by decide))
  have hwatch := wordOf_wordBytes watch
  have hevents := wordOf_wordBytes events
  have hcookie := wordOf_wordBytes cookie
  simp only [wordBytes] at hwatch hevents hcookie
  simp [front, encode, wordBytes, hlen, hwatch, hevents, hcookie]

/-! ## What a queue holds -/

/-- The records in a queue, oldest first. -/
structure Holds (queue : Queue) (records : List Offer) : Prop where
  bytes_eq : queue.bytes.data = records.flatMap encode
  count_eq : queue.count = records.length
  short : ∀ record ∈ records, record.name.length ≤ Files.maxEntryName

variable {queue : Queue} {records : List Offer} {offer : Offer}

theorem new_holds {grant : Option ℕ} (h : Queue.new grant = .ok queue) :
    queue.Holds [] ∧ queue.history = [] := by
  unfold Queue.new at h
  split at h
  · rename_i bytes hbytes
    cases h
    exact ⟨⟨Vec.tryReserve_data hbytes, rfl, by simp⟩, rfl⟩
  · cases h

variable (h : queue.Holds records)
include h

theorem Holds.record (hname : offer.name.length ≤ Files.maxEntryName) :
    (queue.record offer).Holds (records ++ [offer]) := by
  refine ⟨?_, ?_, ?_⟩
  · simp [Queue.record, h.bytes_eq]
  · simp [Queue.record, h.count_eq]
  · intro record hrecord
    rcases mem_append.mp hrecord with hrecord | hrecord
    · exact h.short record hrecord
    · rw [mem_singleton.mp hrecord]
      exact hname

theorem Holds.lose : ∃ more, queue.lose.Holds (records ++ more) := by
  unfold Queue.lose
  split
  · exact ⟨[], by simpa using h⟩
  · refine ⟨[⟨0, Watches.overflow, 0, []⟩], ?_⟩
    have hlost : ({ queue with lost := true } : Queue).Holds records := ⟨h.bytes_eq, h.count_eq, h.short⟩
    exact hlost.record (by simp)

theorem Holds.noted (offer : Offer) (queued : Bool) :
    (queue.noted offer queued).Holds records := ⟨h.bytes_eq, h.count_eq, h.short⟩

theorem Holds.push (grant : Option ℕ) (hname : offer.name.length ≤ Files.maxEntryName) :
    ∃ more, (queue.push grant offer).Holds (records ++ more) := by
  unfold Queue.push
  split
  · obtain ⟨more, hmore⟩ := h.lose
    exact ⟨more, hmore.noted _ _⟩
  · split
    · obtain ⟨more, hmore⟩ := h.lose
      exact ⟨more, hmore.noted _ _⟩
    · rename_i bytes hbytes
      have hroom : ({ queue with bytes := bytes } : Queue).Holds records :=
        ⟨(Vec.tryReserve_data hbytes).trans h.bytes_eq, h.count_eq, h.short⟩
      exact ⟨[offer], (hroom.record hname).noted _ _⟩

omit h

/-- The memory a queue keeps after a read holds what it held. -/
theorem data_shrunk {bytes : Vec UInt8} {n : ℕ} (fresh : Option ℕ) (h : n = 0 → bytes.data = []) :
    (if n = 0 ∧ bytes.capacity > page then
      ((Vec.empty : Vec UInt8).tryReserve header fresh).getD bytes else bytes).data = bytes.data := by
  split
  · rename_i hempty
    rw [h hempty.1]
    cases hfresh : (Vec.empty : Vec UInt8).tryReserve header fresh with
    | none => exact h hempty.1
    | some reserved => exact Vec.tryReserve_data hfresh
  · rfl

/-- A read takes the oldest record, whole. -/
theorem Holds.pop (h : queue.Holds (offer :: records)) (fresh : Option ℕ) : ∃ final, queue.pop fresh =
        .ok (some (delivered offer.watch offer.events offer.cookie offer.name), final) ∧
      final.Holds records := by
  have hfront := front_encode (h.short offer mem_cons_self) (records.flatMap encode)
  rw [← flatMap_cons, ← h.bytes_eq] at hfront
  have hn : queue.count ≠ 0 := by simp [h.count_eq]
  have hless : queue.count - 1 = records.length := by simp [h.count_eq]
  unfold Queue.pop
  rw [if_neg hn, hfront]
  refine ⟨_, rfl, ?_, hless, fun record hrecord ↦ h.short record (mem_cons_of_mem _ hrecord)⟩
  refine (data_shrunk fresh fun hzero ↦ ?_).trans rfl
  have hnil : records = [] := eq_nil_of_length_eq_zero (hless ▸ hzero)
  simp [hnil]

theorem Holds.pop_nil (h : queue.Holds []) (fresh : Option ℕ) : queue.pop fresh = .ok (none, queue) := by
  unfold Queue.pop
  exact if_pos h.count_eq

end Queue

/-! ## Watchers -/

namespace Watcher

/-- The queue of the watcher holds whole records. -/
def Framed (watcher : Watcher) : Prop := ∃ records, watcher.queue.Holds records

/-- Whatever is told is noted, in order. -/
theorem tell_history (watcher : Watcher) (room : Queue → Option ℕ) (offers : List Offer) :
    ∃ noted, noted.map Prod.fst = offers ∧ (watcher.tell room offers).queue.history =
      watcher.queue.history ++ noted := by
  obtain ⟨queue, watches, last⟩ := watcher
  simp only [tell]
  induction offers generalizing queue with
  | nil => exact ⟨[], rfl, by simp⟩
  | cons offer offers ih =>
    obtain ⟨queued, hpush⟩ := Queue.history_push queue (room queue) offer
    obtain ⟨noted, hnoted, htell⟩ := ih (queue.push (room queue) offer)
    refine ⟨(offer, queued) :: noted, by simp [hnoted], ?_⟩
    rw [foldl_cons, htell, hpush]
    simp

theorem Framed.tell {watcher : Watcher} (h : watcher.Framed) (room : Queue → Option ℕ) {offers : List Offer}
    (hnames : ∀ offer ∈ offers, offer.name.length ≤ Files.maxEntryName) :
    (watcher.tell room offers).Framed := by
  obtain ⟨queue, watches, last⟩ := watcher
  simp only [Framed, Watcher.tell] at h ⊢
  induction offers generalizing queue with
  | nil => exact h
  | cons offer offers ih =>
    obtain ⟨records, hrecords⟩ := h
    obtain ⟨more, hmore⟩ := hrecords.push (room queue) (hnames offer mem_cons_self)
    exact ih (fun j hj ↦ hnames j (mem_cons_of_mem _ hj)) _ ⟨_, hmore⟩

end Watcher

end DotnetPal.Memfs
