import DotnetPal.Memfs.Outcomes

/-!
# The protocol of a watcher

A watcher gives out ids, hears of events under the ids of its live watches, and ends each watch with
one event that is the last under its id. `Watcher.Step` is everything that ever happens to a watcher;
`Watcher.Sound` is kept by it.
-/

open Std List

namespace DotnetPal.Memfs

open Programs

/-- An event that ends a watch. -/
def Offer.Removes (offer : Offer) : Prop := offer.events &&& Watches.removed ≠ 0

/-- The event with which watch `id` ends. -/
def Offer.ending (id : UInt32) : Offer := ⟨id, Watches.removed, 0, []⟩

theorem Offer.ending_removes (id : UInt32) : (Offer.ending id).Removes := by
  change Watches.removed &&& Watches.removed ≠ 0
  decide

/-- Exactly one event ends watch `id`, and none comes under the id after it. -/
def Ends (id : UInt32) (offers : List Offer) : Prop :=
  ∃ before after, offers = before ++ Offer.ending id :: after ∧
    (∀ offer ∈ before, offer.watch = id → ¬offer.Removes) ∧ ∀ offer ∈ after, offer.watch ≠ id

theorem Ends.append {id : UInt32} {offers more : List Offer} (h : Ends id offers)
    (hmore : ∀ o ∈ more, o.watch ≠ id) : Ends id (offers ++ more) := by
  obtain ⟨old, new, rfl, hold, hnew⟩ := h
  refine ⟨old, new ++ more, by simp, hold, ?_⟩
  intro o hoffer
  rcases mem_append.mp hoffer with hoffer | hoffer
  · exact hnew o hoffer
  · exact hmore o hoffer

namespace Watcher

/-- Every event ever offered to the queue. -/
def offered (w : Watcher) : List Offer := w.queue.history.map Prod.fst

/-- The watcher has a watch of that id. -/
def Live (w : Watcher) (id : UInt32) : Prop := ∃ watch ∈ w.watches.data, watch.id = id

/-- What holds of a watcher between calls. -/
structure Sound (w : Watcher) : Prop where
  framed : w.Framed
  nodes_distinct : w.watches.data.Pairwise fun first second ↦ first.node ≠ second.node
  ids_distinct : w.watches.data.Pairwise fun first second ↦ first.id ≠ second.id
  ids_range : ∀ watch ∈ w.watches.data, 0 < watch.id.toNat ∧ watch.id.toNat ≤ w.last.toNat
  offered_range : ∀ offer ∈ w.offered, offer.watch.toNat ≤ w.last.toNat
  /-- No event ends a watch that lives. -/
  live : ∀ id, w.Live id → ∀ offer ∈ w.offered, offer.watch = id → ¬offer.Removes
  ended : ∀ id : UInt32, 0 < id.toNat → id.toNat ≤ w.last.toNat → ¬w.Live id →
    Ends id w.offered

/-- What happens to a watcher. -/
inductive Step (w : Watcher) : Watcher → Prop
  | tell {room offers} : (∀ offer ∈ offers, w.Live offer.watch ∧ ¬offer.Removes ∧
      offer.name.length ≤ Files.maxEntryName) → Step w (w.tell room offers)
  | finish {room i} {watch : Watch} : w.watches.data[i]? = some watch →
      Step w ({ w with
        watches := w.watches.withData (w.watches.data.eraseIdx i) }.tell room [.ending watch.id])
  | rewatch {i events} {known : Watch} : w.watches.data[i]? = some known →
      Step w { w with
        watches := w.watches.withData (w.watches.data.set i { known with events := events }) }
  | watch {watches : Vec Watch} {node events} : w.last ≠ 0xffffffff →
      (∀ watch ∈ w.watches.data, watch.node ≠ node) →
      watches.data = w.watches.data ++ [⟨w.last + 1, node, events⟩] →
      Step w { w with watches := watches, last := w.last + 1 }
  | pop {fresh event queue} : w.queue.pop fresh = .ok (event, queue) →
      Step w { w with queue := queue }

variable {w next : Watcher}

theorem offered_tell (w : Watcher) (room : Queue → Option ℕ) (offers : List Offer) :
    (w.tell room offers).offered = w.offered ++ offers := by
  obtain ⟨noted, hnoted, htell⟩ := w.tell_history room offers
  rw [offered, htell, map_append, hnoted]
  rfl

variable (h : w.Sound)
include h

variable {room : Queue → Option ℕ}

theorem Sound.tell {offers : List Offer}
    (hoffers : ∀ o ∈ offers, w.Live o.watch ∧ ¬o.Removes ∧
      o.name.length ≤ Files.maxEntryName) : (w.tell room offers).Sound where
  framed := h.framed.tell room fun o hoffer ↦ (hoffers o hoffer).2.2
  nodes_distinct := h.nodes_distinct
  ids_distinct := h.ids_distinct
  ids_range := h.ids_range
  offered_range := by
    intro o hoffer
    rw [offered_tell] at hoffer
    rcases mem_append.mp hoffer with hoffer | hoffer
    · exact h.offered_range o hoffer
    · obtain ⟨⟨watch, hwatch, hid⟩, _⟩ := hoffers o hoffer
      rw [← hid]
      exact (h.ids_range watch hwatch).2
  live := by
    intro id hlive o hoffer hid
    rw [offered_tell] at hoffer
    rcases mem_append.mp hoffer with hoffer | hoffer
    · exact h.live id hlive o hoffer hid
    · exact (hoffers o hoffer).2.1
  ended := by
    intro id hpos hle hdead
    rw [offered_tell]
    refine (h.ended id hpos hle hdead).append fun o hoffer hid ↦ hdead ?_
    rw [← hid]
    exact (hoffers o hoffer).1

omit h in
/-- The ids of the other watches are other ids. -/
theorem id_ne_of_mem_eraseIdx {watches : List Watch} {i : ℕ} {gone watch : Watch}
    (hdistinct : watches.Pairwise fun a b ↦ a.id ≠ b.id) (hgone : watches[i]? = some gone)
    (hwatch : watch ∈ watches.eraseIdx i) : watch.id ≠ gone.id := by
  obtain ⟨hindex, hget⟩ := List.getElem?_eq_some_iff.mp hgone
  obtain ⟨j, hj, hne, hx⟩ := mem_eraseIdx_iff_getElem.mp hwatch
  rw [pairwise_iff_getElem] at hdistinct
  rw [← hget, ← hx]
  rcases Nat.lt_or_gt_of_ne hne with hlt | hgt
  · exact hdistinct _ _ hj hindex hlt
  · exact (hdistinct _ _ hindex hj hgt).symm

theorem Sound.finish {i : ℕ} {watch : Watch} (hwatch : w.watches.data[i]? = some watch) :
    ({ w with watches := w.watches.withData (w.watches.data.eraseIdx i) }.tell room
      [.ending watch.id]).Sound := by
  have hmem : watch ∈ w.watches.data := mem_of_getElem? hwatch
  have hsub : (w.watches.data.eraseIdx i).Sublist w.watches.data := eraseIdx_sublist _ _
  have hoffered : ∀ watches : Vec Watch,
    ({ w with watches := watches }.tell room [.ending watch.id]).offered =
      w.offered ++ [.ending watch.id] := fun watches ↦ offered_tell _ room _
  constructor
  · have hframed : ({ w with watches := w.watches.withData (w.watches.data.eraseIdx i) } :
        Watcher).Framed := h.framed
    exact hframed.tell room (by simp [Offer.ending])
  · exact h.nodes_distinct.sublist hsub
  · exact h.ids_distinct.sublist hsub
  · exact fun j hj ↦ h.ids_range j (hsub.mem hj)
  · intro o hoffer
    rw [hoffered] at hoffer
    rcases mem_append.mp hoffer with hoffer | hoffer
    · exact h.offered_range o hoffer
    · rw [mem_singleton.mp hoffer]
      exact (h.ids_range watch hmem).2
  · rintro id ⟨j, hj, rfl⟩ o hoffer hid
    rw [hoffered] at hoffer
    rcases mem_append.mp hoffer with hoffer | hoffer
    · exact h.live _ ⟨j, hsub.mem hj, rfl⟩ o hoffer hid
    · rw [mem_singleton.mp hoffer] at hid
      exact absurd hid.symm (id_ne_of_mem_eraseIdx h.ids_distinct hwatch hj)
  · intro id hpos hle hdead
    rw [hoffered]
    by_cases hid : id = watch.id
    · rw [hid]
      refine ⟨w.offered, [], rfl, fun o hoffer hsame ↦ ?_, by simp⟩
      exact h.live watch.id ⟨watch, hmem, rfl⟩ o hoffer hsame
    · have hold : ¬w.Live id := by
        rintro ⟨j, hj, rfl⟩
        refine hdead ⟨j, ?_, rfl⟩
        refine (mem_eraseIdx_iff_getElem?).mpr ?_
        obtain ⟨p, hp⟩ := mem_iff_getElem?.mp hj
        refine ⟨p, ?_, hp⟩
        rintro rfl
        rw [hwatch, Option.some.injEq] at hp
        exact hid (by rw [hp])
      refine (h.ended id hpos hle hold).append fun o hoffer ↦ ?_
      rw [mem_singleton.mp hoffer]
      exact fun hsame ↦ hid hsame.symm

omit h in
/-- A change of what a watch asks for leaves its node and its id. -/
theorem map_set_known {β : Type} {watches : List Watch} {i : ℕ} {known : Watch} (events : UInt32)
    (f : Watch → β)
    (hf : f { known with events := events } = f known) (hknown : watches[i]? = some known) :
    (watches.set i { known with events := events }).map f = watches.map f := by
  obtain ⟨hindex, hget⟩ := List.getElem?_eq_some_iff.mp hknown
  rw [map_set, hf, ← hget, ← getElem_map f (h := by simpa using hindex), set_getElem_self]

theorem Sound.rewatch {i : ℕ} {events : UInt32} {known : Watch} (hknown : w.watches.data[i]? = some known) :
    ({ w with
      watches := w.watches.withData (w.watches.data.set i { known with events := events }) } :
        Watcher).Sound := by
  have hnodes := map_set_known events Watch.node rfl hknown
  have hids := map_set_known events Watch.id rfl hknown
  have hlive : ∀ id, ({ w with
      watches := w.watches.withData (w.watches.data.set i { known with events := events }) } :
        Watcher).Live id ↔ w.Live id := by
    intro id
    have hmem : id ∈ (w.watches.data.set i { known with events := events }).map Watch.id ↔
        id ∈ w.watches.data.map Watch.id := by rw [hids]
    rw [mem_map, mem_map] at hmem
    exact hmem
  constructor
  · exact h.framed
  · have hdistinct := h.nodes_distinct
    rw [← pairwise_map (f := Watch.node) (R := (· ≠ ·)), ← hnodes, pairwise_map] at hdistinct
    exact hdistinct
  · have hdistinct := h.ids_distinct
    rw [← pairwise_map (f := Watch.id) (R := (· ≠ ·)), ← hids, pairwise_map] at hdistinct
    exact hdistinct
  · intro watch hwatch
    obtain ⟨j, hj, hsame⟩ := (hlive watch.id).mp ⟨watch, hwatch, rfl⟩
    rw [← hsame]
    exact h.ids_range j hj
  · exact h.offered_range
  · intro id hid
    exact h.live id ((hlive id).mp hid)
  · intro id hpos hle hdead
    exact h.ended id hpos hle fun hid ↦ hdead ((hlive id).mpr hid)

omit h in
/-- The next id does not wrap. -/
theorem toNat_last_add_one (hlast : w.last ≠ 0xffffffff) : (w.last + 1).toNat = w.last.toNat + 1 := by
  have hlt := w.last.toNat_lt
  have hne : w.last.toNat ≠ 0xffffffff := fun hsame ↦ hlast (UInt32.toNat_inj.mp hsame)
  rw [UInt32.toNat_add]
  simp only [UInt32.toNat_one]
  omega

theorem Sound.watch {watches : Vec Watch} {node : ℕ} {events : UInt32}
    (hlast : w.last ≠ 0xffffffff) (hnew : ∀ watch ∈ w.watches.data, watch.node ≠ node)
    (hdata : watches.data = w.watches.data ++ [⟨w.last + 1, node, events⟩]) :
    ({ w with watches := watches, last := w.last + 1 } : Watcher).Sound := by
  have hnext := toNat_last_add_one hlast
  constructor
  · exact h.framed
  · rw [hdata, pairwise_append]
    exact ⟨h.nodes_distinct, by simp, by simpa using hnew⟩
  · rw [hdata, pairwise_append]
    refine ⟨h.ids_distinct, by simp, ?_⟩
    intro watch hwatch j hj hsame
    rw [mem_singleton.mp hj] at hsame
    have hle := (h.ids_range watch hwatch).2
    rw [hsame, hnext] at hle
    omega
  · intro watch hwatch
    rw [hdata] at hwatch
    rcases mem_append.mp hwatch with hwatch | hwatch
    · have hrange := h.ids_range watch hwatch
      dsimp only
      omega
    · rw [mem_singleton.mp hwatch]
      dsimp only
      omega
  · intro o hoffer
    have hrange := h.offered_range o hoffer
    dsimp only
    omega
  · rintro id ⟨watch, hwatch, rfl⟩ o hoffer hid
    rw [hdata] at hwatch
    rcases mem_append.mp hwatch with hwatch | hwatch
    · exact h.live _ ⟨watch, hwatch, rfl⟩ o hoffer hid
    · rw [mem_singleton.mp hwatch] at hid
      have hrange := h.offered_range o hoffer
      rw [hid] at hrange
      dsimp only at hrange
      omega
  · intro id hpos hle hdead
    have hne : id ≠ w.last + 1 := by
      rintro rfl
      exact hdead ⟨_, by rw [hdata]; exact mem_append_right _ (mem_singleton.mpr rfl), rfl⟩
    have hless : id.toNat ≤ w.last.toNat := by
      have hneNat : id.toNat ≠ w.last.toNat + 1 := fun hsame ↦
        hne (UInt32.toNat_inj.mp (hsame.trans hnext.symm))
      dsimp only at hle
      omega
    refine h.ended id hpos hless ?_
    rintro ⟨watch, hwatch, hid⟩
    exact hdead ⟨watch, by rw [hdata]; exact mem_append_left _ hwatch, hid⟩

theorem Sound.pop {fresh : Option ℕ} {event : Option Offer} {queue : Queue}
    (hpop : w.queue.pop fresh = .ok (event, queue)) :
    ({ w with queue := queue } : Watcher).Sound := by
  have hoffered : ({ w with queue := queue } : Watcher).offered = w.offered := by
    simp only [offered, Queue.history_pop hpop]
  constructor
  · obtain ⟨records, hrecords⟩ := h.framed
    cases records with
    | nil =>
      rw [hrecords.pop_nil] at hpop
      cases hpop
      exact ⟨[], hrecords⟩
    | cons o rest =>
      obtain ⟨final, hfinal, hrest⟩ := hrecords.pop fresh
      rw [hfinal] at hpop
      cases hpop
      exact ⟨rest, hrest⟩
  · exact h.nodes_distinct
  · exact h.ids_distinct
  · exact h.ids_range
  · rw [hoffered]
    exact h.offered_range
  · rw [hoffered]
    exact h.live
  · rw [hoffered]
    exact h.ended

omit h in
/-- A new watcher watches nothing and heard nothing. -/
theorem Sound.new {grant : Option ℕ} {queue : Queue} (h : Queue.new grant = .ok queue) :
    (⟨queue, Vec.empty, 0⟩ : Watcher).Sound := by
  obtain ⟨hholds, hhistory⟩ := Queue.new_holds h
  have hoffered : (⟨queue, Vec.empty, 0⟩ : Watcher).offered = [] := by
    rw [offered, hhistory]
    rfl
  refine ⟨⟨[], hholds⟩, .nil, .nil, fun watch hwatch ↦ (not_mem_nil hwatch).elim, ?_, ?_, ?_⟩
  · simp [hoffered]
  · simp [hoffered]
  · intro id hpos hle
    exact absurd hle (Nat.not_le.mpr hpos)

/-- The step of every watcher keeps its protocol. -/
theorem Sound.step (hstep : w.Step next) : next.Sound := by
  cases hstep with
  | tell hoffers => exact h.tell hoffers
  | finish hwatch => exact h.finish hwatch
  | rewatch hknown => exact h.rewatch hknown
  | watch hlast hnew hdata => exact h.watch hlast hnew hdata
  | pop hpop => exact h.pop hpop

theorem Sound.steps (hsteps : Relation.ReflTransGen Step w next) : next.Sound := by
  induction hsteps with
  | refl => exact h
  | tail _ hstep ih => exact ih.step hstep

end Watcher

end DotnetPal.Memfs
