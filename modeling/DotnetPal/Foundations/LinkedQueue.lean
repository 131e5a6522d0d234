import Mathlib.Data.List.Nodup
import Mathlib.Logic.Function.Basic

/-!
# Queues linked through their items

A queue is a pointer to its first item and one to its last; every item points to the one behind it.
The pointers of the items are a function, which queues with no item in common share. `Represents`
says which list a queue stands for; appending, taking the first item and taking out one in the
middle are the operations of the list.
-/

open List Function

namespace DotnetPal.LinkedQueue

variable {ι : Type} {next other : ι → Option ι} {items : List ι} {item : ι}

/-- Following the pointers from `first` leads through the items to `last`. -/
def Segment (next : ι → Option ι) : Option ι → List ι → Option ι → Prop
  | first, [], last => first = last
  | first, item :: items, last => first = some item ∧ Segment next (next item) items last

theorem segment_append {a last : Option ι} {rest : List ι} : Segment next a (items ++ rest) last ↔
      ∃ middle, Segment next a items middle ∧ Segment next middle rest last := by
  induction items generalizing a with
  | nil => simp [Segment]
  | cons item items ih => simp [Segment, ih, and_assoc]

/-- Only the pointers of the items matter. -/
theorem Segment.congr {a last : Option ι} (h : Segment next a items last)
    (hsame : ∀ item ∈ items, other item = next item) : Segment other a items last := by
  induction items generalizing a with
  | nil => exact h
  | cons item items ih =>
    obtain ⟨ha, hrest⟩ := h
    refine ⟨ha, ?_⟩
    rw [hsame item mem_cons_self]
    exact ih hrest fun x hx ↦ hsame x (mem_cons_of_mem _ hx)

structure Queue (ι : Type) where
  head : Option ι
  tail : Option ι
  deriving DecidableEq

structure Represents (next : ι → Option ι) (queue : Queue ι) (items : List ι) : Prop where
  segment : Segment next queue.head items none
  tail_eq : queue.tail = items.getLast?
  nodup : items.Nodup

theorem represents_empty (next : ι → Option ι) : Represents next ⟨none, none⟩ [] := ⟨rfl, rfl, nodup_nil⟩

variable {queue : Queue ι}

theorem Represents.congr (h : Represents next queue items)
    (hsame : ∀ item ∈ items, other item = next item) : Represents other queue items :=
  ⟨h.segment.congr hsame, h.tail_eq, h.nodup⟩

theorem Represents.queue_eq (h : Represents next queue items) : queue = ⟨items.head?, items.getLast?⟩ := by
  rw [← h.tail_eq]
  cases items with
  | nil => rw [head?_nil, ← show queue.head = none from h.segment]
  | cons item items => rw [head?_cons, ← h.segment.1]

/-! ## Appending -/

section Changes

variable [DecidableEq ι]

/-- The pointers once `item` is behind the last one. -/
def linkLast (next : ι → Option ι) (queue : Queue ι) (item : ι) : ι → Option ι :=
  match queue.tail with
  | some last => update (update next item none) last (some item)
  | none => update next item none

def Queue.push (queue : Queue ι) (item : ι) : Queue ι where
  head := match queue.tail with
    | some _ => queue.head
    | none => some item
  tail := some item

theorem linkLast_of_not_mem (h : Represents next queue items) {x : ι} (hitem : x ≠ item)
    (hmem : x ∉ items) : linkLast next queue item x = next x := by
  cases htail : queue.tail with
  | none => simp [linkLast, htail, hitem]
  | some last =>
    have hin : last ∈ items := mem_of_getLast? (h.tail_eq.symm.trans htail)
    have hne : x ≠ last := fun heq ↦ hmem (heq ▸ hin)
    simp [linkLast, htail, hitem, hne]

theorem Represents.push (h : Represents next queue items) (hnew : item ∉ items) :
    Represents (linkLast next queue item) (queue.push item) (items ++ [item]) := by
  have hnodup : (items ++ [item]).Nodup :=
    nodup_append.mpr ⟨h.nodup, nodup_singleton item, by
      rintro x hx _ hitem rfl
      exact hnew (mem_singleton.mp hitem ▸ hx)⟩
  refine ⟨?_, by simp [Queue.push], hnodup⟩
  have htail := h.tail_eq
  rcases eq_nil_or_concat items with rfl | ⟨front, last, rfl⟩
  · rw [getLast?_nil] at htail
    simp [Segment, Queue.push, linkLast, htail]
  · rw [concat_eq_append, getLast?_append, getLast?_singleton, Option.some_or] at htail
    have hlast : last ∉ front := by
      have hfront := h.nodup
      rw [concat_eq_append, nodup_append] at hfront
      intro hmem
      exact hfront.2.2 last hmem last (mem_singleton.mpr rfl) rfl
    have hne : item ≠ last := by
      rintro rfl
      exact hnew (by simp)
    rw [concat_eq_append] at hnew ⊢
    have hsegment := h.segment
    rw [concat_eq_append, segment_append] at hsegment
    obtain ⟨middle, hfront, hmiddle, hnext⟩ := hsegment
    have hkept : ∀ x ∈ front, linkLast next queue item x = next x := by
      intro x hx
      have hfoundItem : x ≠ item := fun heq ↦ hnew (heq ▸ mem_append_left _ hx)
      have hfoundLast : x ≠ last := fun heq ↦ hlast (heq ▸ hx)
      simp [linkLast, htail, hfoundItem, hfoundLast]
    rw [segment_append]
    refine ⟨some item, segment_append.mpr ⟨middle, ?_, hmiddle, ?_⟩, rfl, ?_⟩
    · simp only [Queue.push, htail]
      exact hfront.congr hkept
    · simp [Segment, linkLast, htail]
    · simp [Segment, linkLast, htail, hne]

end Changes

/-! ## Taking the first -/

/-- The first item and the queue behind it. -/
def Queue.pop (next : ι → Option ι) (queue : Queue ι) : Option (ι × Queue ι) :=
  queue.head.map fun first ↦ (first, ⟨next first, if next first = none then none else queue.tail⟩)

theorem Represents.pop_nil (h : Represents next queue []) : queue.pop next = none := by
  have hhead : queue.head = none := h.segment
  simp [Queue.pop, hhead]

theorem Represents.pop_cons (h : Represents next queue (item :: items)) :
    ∃ final, queue.pop next = some (item, final) ∧ Represents next final items := by
  obtain ⟨hhead, hrest⟩ := h.segment
  refine ⟨_, by rw [Queue.pop, hhead]; rfl, hrest, ?_, (nodup_cons.mp h.nodup).2⟩
  have htail := h.tail_eq
  cases items with
  | nil =>
    have hnone : next item = none := hrest
    simp [hnone]
  | cons b rest =>
    have hsome : next item = some b := hrest.1
    rw [getLast?_cons_cons] at htail
    simpa [hsome] using htail

/-! ## Taking one out -/

variable [DecidableEq ι]

/-- The item before `item`, if there is one, found by walking from the head. The walk gives up after
`fuel` items. -/
def before (next : ι → Option ι) (item : ι) : ℕ → Option ι → Option ι → Option (Option ι)
  | 0, _, _ => none
  | _ + 1, none, _ => none
  | fuel + 1, some here, previous =>
    if here = item then some previous else before next item fuel (next here) (some here)

def unlink (fuel : ℕ) (next : ι → Option ι) (queue : Queue ι) (item : ι) : (ι → Option ι) × Queue ι :=
  match before next item fuel queue.head none with
  | none => (next, queue)
  | some none => (next, ⟨next item, if queue.tail = some item then none else queue.tail⟩)
  | some (some previous) =>
    (update next previous (next item),
      ⟨queue.head, if queue.tail = some item then some previous else queue.tail⟩)

variable {fuel : ℕ}

/-- The walk passes the items in front and remembers the last of them. -/
theorem before_eq {a previous : Option ι} {front back : List ι} (hfuel : front.length < fuel)
    (h : Segment next a (front ++ item :: back) none) (hfront : item ∉ front) :
    before next item fuel a previous = some (front.getLast?.or previous) := by
  induction front generalizing a previous fuel with
  | nil =>
    obtain ⟨fuel, rfl⟩ := Nat.exists_eq_succ_of_ne_zero (Nat.pos_iff_ne_zero.mp hfuel)
    obtain ⟨rfl, _⟩ := h
    simp [before]
  | cons x front ih =>
    obtain ⟨fuel, rfl⟩ := Nat.exists_eq_succ_of_ne_zero (Nat.ne_of_gt (Nat.zero_lt_of_lt hfuel))
    obtain ⟨rfl, hrest⟩ := h
    have hne : x ≠ item := fun heq ↦ hfront (heq ▸ mem_cons_self)
    have hlater : before next item fuel (next x) (some x) = _ :=
      ih (Nat.lt_of_succ_lt_succ hfuel) hrest fun hmem ↦ hfront (mem_cons_of_mem _ hmem)
    simp only [before, if_neg hne]
    rw [hlater, getLast?_cons]
    cases front.getLast? <;> rfl

/-- The last item once `item` is taken out: the one before it, if it was the last. -/
theorem getLast?_without (front : List ι) {back : List ι} (hback : item ∉ back) :
    (if (front ++ item :: back).getLast? =
      some item then front.getLast? else (front ++ item :: back).getLast?) =
      (front ++ back).getLast? := by
  cases back with
  | nil => simp
  | cons b rest =>
    have hlast : (b :: rest).getLast? ≠ some item := fun hlast ↦ hback (mem_of_getLast? hlast)
    rw [getLast?_append, getLast?_append, getLast?_cons_cons]
    rw [getLast?_eq_some_getLast (cons_ne_nil b rest)] at hlast ⊢
    rw [Option.some_or, if_neg hlast]

theorem Represents.unlink {front back : List ι} (h : Represents next queue (front ++ item :: back))
    (hfuel : front.length < fuel) :
    Represents (LinkedQueue.unlink fuel next queue item).1
      (LinkedQueue.unlink fuel next queue item).2 (front ++ back) := by
  have hnodup := h.nodup
  obtain ⟨hfrontNodup, hitemBack, happart⟩ := nodup_append.mp hnodup
  obtain ⟨hback, hbackNodup⟩ := nodup_cons.mp hitemBack
  have hfront : item ∉ front := fun hmem ↦ happart item hmem item mem_cons_self rfl
  have hbefore : before next item fuel queue.head none = some front.getLast? := by
    rw [before_eq hfuel h.segment hfront, Option.or_none]
  have hleft : (front ++ back).Nodup := hnodup.sublist ((sublist_cons_self item back).append_left front)
  have htail := h.tail_eq
  have hsegment := h.segment
  rcases eq_nil_or_concat front with rfl | ⟨most, last, rfl⟩
  · -- The item is the first one.
    obtain ⟨_, hrest⟩ := hsegment
    simp only [LinkedQueue.unlink, hbefore, getLast?_nil]
    refine ⟨hrest, ?_, hleft⟩
    rw [htail]
    simpa using getLast?_without [] hback
  · rw [concat_eq_append] at hbefore hsegment hfront hleft htail ⊢
    rw [getLast?_append, getLast?_singleton, Option.some_or] at hbefore
    simp only [LinkedQueue.unlink, hbefore]
    rw [append_assoc, segment_append] at hsegment
    obtain ⟨middle, hmost, hmiddle, hlast, hrest⟩ := hsegment
    have hdistinct : last ∉ most ∧ last ∉ back := by
      rw [append_assoc, nodup_append, singleton_append, nodup_cons] at hleft
      exact ⟨fun hmem ↦ hleft.2.2 last hmem last mem_cons_self rfl, hleft.2.1.1⟩
    refine ⟨?_, ?_, hleft⟩
    · rw [append_assoc, segment_append]
      refine ⟨middle, hmost.congr fun x hx ↦ ?_, hmiddle, ?_⟩
      · have hne : x ≠ last := fun heq ↦ hdistinct.1 (heq ▸ hx)
        exact update_of_ne hne _ _
      · rw [update_self]
        refine hrest.congr fun x hx ↦ ?_
        have hne : x ≠ last := fun heq ↦ hdistinct.2 (heq ▸ hx)
        exact update_of_ne hne _ _
    · rw [htail]
      have hwithout := getLast?_without (most ++ [last]) hback
      rwa [show (most ++ [last]).getLast? = some last by simp] at hwithout

theorem unlink_of_not_mem {front back : List ι} (h : Represents next queue (front ++ item :: back))
    (hfuel : front.length < fuel) {x : ι} (hx : x ∉ front ++ item :: back) :
    (LinkedQueue.unlink fuel next queue item).1 x = next x := by
  have hfront : item ∉ front := fun hmem ↦ (nodup_append.mp h.nodup).2.2 item hmem item mem_cons_self rfl
  have hbefore : before next item fuel queue.head none = some front.getLast? := by
    rw [before_eq hfuel h.segment hfront, Option.or_none]
  cases hlast : front.getLast? with
  | none => simp [LinkedQueue.unlink, hbefore, hlast]
  | some last =>
    have hne : x ≠ last := fun heq ↦ hx (mem_append_left _ (heq ▸ mem_of_getLast? hlast))
    simp [LinkedQueue.unlink, hbefore, hlast, hne]

end DotnetPal.LinkedQueue
