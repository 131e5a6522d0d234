import DotnetPal.Memfs.Guarantees

/-!
# Watches over whole runs

The table of watches and the way each watch ends, and what a watch of a directory lets its reader
know: the events about names that were queued since the watch was added replay to what the
directory lists.
-/

open Std List

namespace DotnetPal.Memfs

open Programs Relation

attribute [local instance] lexOrd

/-! ## Events in the order they were offered -/

variable {id : UInt32}

theorem Ends.mem {offers : List Offer} (h : Ends id offers) : Offer.ending id ∈ offers := by
  obtain ⟨before, after, rfl, _, _⟩ := h
  simp

/-- Where nothing ended the watch before, its end is in what came after. -/
theorem Ends.of_append {offers more : List Offer} (h : Ends id (offers ++ more))
    (hoffers : ∀ offer ∈ offers, offer.watch = id → ¬offer.Removes) : Ends id more := by
  obtain ⟨before, after, heq, hold, hnew⟩ := h
  rcases append_eq_append_iff.mp heq with ⟨gap, hgap, hmore⟩ | ⟨gap, hgap, hrest⟩
  · exact ⟨gap, after, hmore,
      fun offer hoffer ↦ hold offer (by rw [hgap]; exact mem_append_right _ hoffer), hnew⟩
  · cases gap with
    | nil => exact ⟨[], after, by simpa using hrest.symm, by simp, hnew⟩
    | cons offer gap =>
      -- The end would be one of the events before.
      rw [cons_append, cons.injEq] at hrest
      have hmem : Offer.ending id ∈ offers := by
        rw [hgap, ← hrest.1]
        simp
      exact absurd (Offer.ending_removes id) (hoffers _ hmem rfl)

/-- Nothing comes under the id of a watch that has ended. -/
theorem Ends.silent {offers more : List Offer} (h : Ends id offers) (hall : Ends id (offers ++ more)) :
    ∀ offer ∈ more, offer.watch ≠ id := by
  obtain ⟨a, rest, rfl, ha, _⟩ := h
  obtain ⟨before, after, heq, hold, hnew⟩ := hall
  have hending : ∀ {offers : List Offer}, (∀ offer ∈ offers, offer.watch = id → ¬offer.Removes) →
      Offer.ending id ∉ offers := fun hnone hmem ↦ hnone _ hmem rfl (Offer.ending_removes id)
  rw [append_assoc, cons_append] at heq
  rcases append_eq_append_iff.mp heq with ⟨gap, hgap, hrest⟩ | ⟨gap, hgap, hrest⟩
  · cases gap with
    | nil =>
      rw [nil_append, cons.injEq] at hrest
      exact fun offer hoffer ↦ hnew offer (by rw [← hrest.2]; exact mem_append_right _ hoffer)
    | cons offer gap =>
      rw [cons_append, cons.injEq] at hrest
      exact absurd (by rw [hgap, ← hrest.1]; simp) (hending hold)
  · cases gap with
    | nil =>
      rw [nil_append, cons.injEq] at hrest
      exact fun offer hoffer ↦ hnew offer (by rw [hrest.2]; exact mem_append_right _ hoffer)
    | cons offer gap =>
      rw [cons_append, cons.injEq] at hrest
      exact absurd (by rw [hgap, ← hrest.1]; simp) (hending ha)

namespace Watcher

variable {old new : Watcher}

/-- Events are only added, and ids only counted up. -/
theorem Step.grows (h : old.Step new) :
    (∃ noted, new.offered = old.offered ++ noted) ∧ old.last.toNat ≤ new.last.toNat := by
  cases h with
  | tell | finish => exact ⟨⟨_, offered_tell _ _ _⟩, Nat.le_refl _⟩
  | rewatch _ => exact ⟨⟨[], (append_nil _).symm⟩, Nat.le_refl _⟩
  | watch hlast _ _ =>
    refine ⟨⟨[], (append_nil _).symm⟩, ?_⟩
    rw [toNat_last_add_one hlast]
    exact Nat.le_succ _
  | pop hpop =>
    refine ⟨⟨[], ?_⟩, Nat.le_refl _⟩
    rw [append_nil]
    simp only [offered, Queue.history_pop hpop]

theorem steps_grow (h : ReflTransGen Step old new) :
    (∃ noted, new.offered = old.offered ++ noted) ∧ old.last.toNat ≤ new.last.toNat := by
  induction h with
  | refl => exact ⟨⟨[], (append_nil _).symm⟩, Nat.le_refl _⟩
  | tail _ hstep ih =>
    obtain ⟨⟨a, ha⟩, hle⟩ := ih
    obtain ⟨⟨b, hb⟩, hnext⟩ := hstep.grows
    exact ⟨⟨a ++ b, by rw [hb, ha, append_assoc]⟩, hle.trans hnext⟩

/-- An id that is live and was not is a new one. -/
theorem Sound.last_lt (hold : old.Sound) (hnew : new.Sound) (hsteps : ReflTransGen Step old new)
    (hlive : new.Live id) (hbefore : ¬old.Live id) : old.last.toNat < id.toNat := by
  obtain ⟨⟨noted, hnoted⟩, _⟩ := steps_grow hsteps
  obtain ⟨watch, hwatch, rfl⟩ := hlive
  by_contra hle
  have hends := hold.ended watch.id (hnew.ids_range watch hwatch).1 (Nat.not_lt.mp hle) hbefore
  refine hnew.live watch.id ⟨watch, hwatch, rfl⟩ _ ?_ rfl (Offer.ending_removes _)
  rw [hnoted]
  exact mem_append_left _ hends.mem

end Watcher

/-! ## The end of every watch -/

namespace State

variable {s s' start : State} {env : Env} {call : Call} {reply : Reply}

theorem Steady.attends (h : s.Steady) (honest : env.Honest s) (htrusted : call.Trusted s) :
    Attends call s (after (exec env call) s) :=
  h.after_of_deed honest htrusted (.of_deed h.sound h.watched)
    (.of_reported h.watched (.of_shapes (.of_eq rfl) rfl rfl)) (.of_gaveUp h.watched)

/-- The watches of one watcher: pairwise different nodes and ids, every node with a name, and one
event that ends each watch, the last under its id. -/
structure WatchTable (s : State) (w : Watcher) : Prop where
  nodes_distinct : w.watches.data.Pairwise fun first second ↦ first.node ≠ second.node
  ids_distinct : w.watches.data.Pairwise fun first second ↦ first.id ≠ second.id
  ids_range : ∀ watch ∈ w.watches.data, 1 ≤ watch.id.toNat ∧ watch.id.toNat ≤ w.last.toNat
  named : ∀ watch ∈ w.watches.data, ∃ node, s.nodes[watch.node]? = some node ∧ 1 ≤ node.links
  live : ∀ id, w.Live id → ∀ offer ∈ w.offered, offer.watch = id → ¬offer.Removes
  ended : ∀ id : UInt32, 1 ≤ id.toNat → id.toNat ≤ w.last.toNat → ¬w.Live id → Ends id w.offered

/-- What one call does to a watcher that stays: events are only added, a watch that is new has an id
above every earlier one, a watch that ends is told so once, in the call that ends it and for one of
the two causes, and no event comes under the id of a watch that ended before. -/
structure WatchStep (call : Call) (s s' : State) (key : ℕ) (old new : Watcher) : Prop where
  last_le : old.last.toNat ≤ new.last.toNat
  fresh : ∀ id, new.Live id → ¬old.Live id → old.last.toNat < id.toNat
  offered : ∃ noted, new.offered = old.offered ++ noted ∧
    (∀ watch ∈ old.watches.data, ¬new.Live watch.id →
      Ends watch.id noted ∧
        ((∃ handle, call = .removeWatch handle watch.id ∧ s.handles[handle]? = some (.watcher key)) ∨
          ¬∃ node, s'.nodes[watch.node]? = some node ∧ 1 ≤ node.links)) ∧
    (∀ id, new.Live id → ∀ offer ∈ noted, offer.watch = id → ¬offer.Removes) ∧
    ∀ id : UInt32, 1 ≤ id.toNat → id.toNat ≤ old.last.toNat → ¬old.Live id → ∀ offer ∈ noted, offer.watch ≠ id

theorem Steady.watchTable (h : s.Steady) {key : ℕ} {w : Watcher}
    (hwatcher : s.watchers[key]? = some w) : s.WatchTable w := by
  have hs := h.watched.sound key w hwatcher
  exact ⟨hs.nodes_distinct, hs.ids_distinct, hs.ids_range,
    fun watch hwatch ↦ h.watched.live key w watch hwatcher hwatch, hs.live, hs.ended⟩

theorem Attends.watchStep (hwatched : s.Watched) (hattends : Attends call s s') {key : ℕ}
    {old new : Watcher} (hold : s.watchers[key]? = some old) (hnew : s'.watchers[key]? = some new) :
    WatchStep call s s' key old new := by
  have hbefore := hwatched.sound key old hold
  have hafter := hattends.watched.sound key new hnew
  have hsteps := hattends.steps key old new hold hnew
  obtain ⟨⟨noted, hnoted⟩, hle⟩ := Watcher.steps_grow hsteps
  refine ⟨hle, fun id hlive hdead ↦ hbefore.last_lt hafter hsteps hlive hdead, noted, hnoted, ?_, ?_, ?_⟩
  · intro watch hwatch hover
    have hrange := hbefore.ids_range watch hwatch
    have hends := hafter.ended watch.id hrange.1 (hrange.2.trans hle) hover
    rw [hnoted] at hends
    refine ⟨hends.of_append (hbefore.live watch.id ⟨watch, hwatch, rfl⟩), ?_⟩
    rcases hattends.ends key old new watch hold hnew hwatch hover with hunnamed | hremoved
    · exact .inr hunnamed
    · exact .inl hremoved
  · intro id hlive offer hoffer
    exact hafter.live id hlive offer (by rw [hnoted]; exact mem_append_right _ hoffer)
  · intro id hpos hrange hdead
    have hstill : ¬new.Live id := by
      intro hlive
      exact absurd (hbefore.last_lt hafter hsteps hlive hdead) (Nat.not_lt.mpr hrange)
    have hends := hafter.ended id hpos (hrange.trans hle) hstill
    rw [hnoted] at hends
    exact (hbefore.ended id hpos hrange hdead).silent hends

/-- What the call that adds a watch answers and leaves. -/
theorem Steady.addWatch_cases (h : s.Steady) (honest : env.Honest s) {handle : ℕ} {path : Bytes}
    {events : UInt32} (htrusted : (Call.addWatch handle path events).Trusted s)
    (hrun : exec env (.addWatch handle path events) s = .ok (.watch id) s') :
    ∃ key node old new, s.handles[handle]? = some (.watcher key) ∧
      Files.resolve path (events &&& Watches.noFollow = 0) s = .ok node ∧ s.watchers[key]? = some old ∧
      s'.watchers[key]? = some new ∧
      Watches.added env old node (events &&& requestable) = .ok (id, new) := by
  cases h.deed_of_ok honest htrusted hrun with
  | quiet hhas | locks hhas => exact hhas.elim
  | @addWatch _ _ _ key node old _ new hhandle hresolve _ hold hadded =>
    exact ⟨key, node, old, new, hhandle, hresolve, hold, by simp [Watches.addWatcher], hadded⟩

/-- A removal that returns ends the watch, and that is the one event it notes. -/
theorem Steady.removeWatch_cases (h : s.Steady) (honest : env.Honest s) {handle : ℕ}
    (htrusted : (Call.removeWatch handle id).Trusted s)
    (hrun : exec env (.removeWatch handle id) s = .ok reply s') :
    ∃ key old new, s.handles[handle]? = some (.watcher key) ∧ s.watchers[key]? = some old ∧
      s'.watchers[key]? = some new ∧ old.Live id ∧ ¬new.Live id ∧ new.offered = old.offered ++
        [.ending id] := by
  have hfinal := h.after_exec honest htrusted
  rw [after_of_ok hrun] at hfinal
  cases h.deed_of_ok honest htrusted hrun with
  | quiet hhas | remove hhas | create hhas | attributes hhas | locks hhas => exact hhas.elim
  | @removeWatch _ _ key old new hhandle hold hwithout =>
    have hnew : (Watches.addWatcher key new s).watchers[key]? = some new := by simp [Watches.addWatcher]
    obtain ⟨i, gone, hgone, rfl, hchanged⟩ := Watches.withoutWatch_cases hwithout
    have hoffered : new.offered = old.offered ++ [.ending gone.id] := by
      rw [hchanged]
      exact Watcher.offered_tell ..
    refine ⟨key, old, new, hhandle, hold, hnew, ⟨gone, mem_of_getElem? hgone, rfl⟩,
      fun hlive ↦ ?_, hoffered⟩
    refine (hfinal.watched.sound key new hnew).live gone.id hlive (.ending gone.id) ?_ rfl
      (Offer.ending_removes _)
    rw [hoffered]
    exact mem_append_right _ (mem_singleton.mpr rfl)

/-- In every reachable state the watches of each watcher are in order and every watch that ended was
told so exactly once; every call keeps to the protocol, a new watch gets an id above all earlier
ones, and a watch that is removed ends. -/
theorem watches_of_reachable (hreach : system.Reachable s) :
    (∀ (key : ℕ) (w : Watcher), s.watchers[key]? = some w → s.WatchTable w) ∧
    ∀ env call, env.Honest s → call.Trusted s →
      (∀ (key : ℕ) (old new : Watcher), s.watchers[key]? = some old →
        (after (exec env call) s).watchers[key]? = some new →
        WatchStep call s (after (exec env call) s) key old new) ∧
      (∀ handle path events id s', call = .addWatch handle path events → exec env call s =
        .ok (.watch id) s' →
        ∃ key old new, s.handles[handle]? = some (.watcher key) ∧ s.watchers[key]? = some old ∧
          s'.watchers[key]? = some new ∧ new.Live id ∧
          (old.Live id ∨ old.last.toNat < id.toNat ∧ new.last = id)) ∧
      ∀ handle id reply s', call = .removeWatch handle id → exec env call s = .ok reply s' →
        ∃ key old new, s.handles[handle]? = some (.watcher key) ∧ s.watchers[key]? = some old ∧
          s'.watchers[key]? = some new ∧ old.Live id ∧ ¬new.Live id ∧
          new.offered = old.offered ++ [.ending id] := by
  have h := steady_of_reachable hreach
  refine ⟨fun key w hwatcher ↦ h.watchTable hwatcher, fun env call honest htrusted ↦ ⟨?_, ?_, ?_⟩⟩
  · exact fun key old new hold hnew ↦ (h.attends honest htrusted).watchStep h.watched hold hnew
  · rintro handle path events id s' rfl hrun
    obtain ⟨key, node, old, new, hhandle, _, hold, hnew, hadded⟩ := h.addWatch_cases honest htrusted hrun
    refine ⟨key, old, new, hhandle, hold, hnew, ?_⟩
    rcases Watches.added_cases hadded with ⟨i, known, hknown, _, rfl, rfl⟩
      | ⟨hlast, _, rfl, watches, hdata, rfl⟩
    · refine ⟨⟨{ known with events := events &&& requestable }, ?_, rfl⟩,
        .inl ⟨known, mem_of_getElem? hknown, rfl⟩⟩
      obtain ⟨hindex, _⟩ := List.getElem?_eq_some_iff.mp hknown
      exact mem_set hindex _
    · refine ⟨⟨_, by rw [hdata]; exact mem_append_right _ (mem_singleton.mpr rfl), rfl⟩, .inr ⟨?_, rfl⟩⟩
      rw [Watcher.toNat_last_add_one hlast]
      exact Nat.lt_succ_self _
  · rintro handle id reply s' rfl hrun
    exact h.removeWatch_cases honest htrusted hrun

/-- The watch of the root heard of a directory that came and went, and ends where it is removed. -/
theorem watches_of_reachable_populated : ∃ w, populated.watchers[1]? = some w ∧
    populated.WatchTable w ∧ w.Live 1 ∧ w.offered.length = 2 ∧
    ∃ s' new, exec (granting 40) (.removeWatch 24 1) populated = .ok .done s' ∧ s'.watchers[1]? = some new ∧
      ¬new.Live 1 ∧ new.offered = w.offered ++ [.ending 1] := by
  have hallowed := allowed_of_callable (show callable 40 (.removeWatch 24 1) populated from rfl)
  have hremove : exec (granting 40) (.removeWatch 24 1) populated = .ok .done _ := rfl
  obtain ⟨htable, hcalls⟩ := watches_of_reachable reachable_populated
  obtain ⟨_, old, new, hhandle, hold, hnew, hlive, hover, hoffered⟩ :=
    (hcalls _ _ hallowed.1 hallowed.2).2.2 24 1 _ _ rfl hremove
  cases (show populated.handles[24]? = some (.watcher 1) from rfl).symm.trans hhandle
  have hheard : populated.watchers[1]?.map (·.offered.length) = some 2 := rfl
  rw [hold] at hheard
  exact ⟨old, hold, htable 1 old hold, hlive, Option.some.inj hheard, _, new, hremove, hnew, hover,
    hoffered⟩

/-! ## What a directory's watch lets its reader know -/

/-- The names of a directory, each with whether it names a directory. -/
def listing (s : State) (dir : ℕ) : Listing := fun name ↦
  (s.entryNode dir name).map fun id ↦ (s.parentField id).isSome

theorem listing_core (dir : ℕ) : s.core.listing dir = s.listing dir := by
  funext name
  rw [Core.listing, listing, entryNode_eq, parentField_eq]

/-- Watch `id` of the watcher is of `directory` and asks for every change of its names. -/
def Follows (s : State) (key : ℕ) (id : UInt32) (dir : ℕ) : Prop :=
  ∃ w, s.watchers[key]? = some w ∧ w.Follows id dir

/-- The events that were queued, in the order of the queue. -/
def queued (noted : List (Offer × Bool)) : List Offer := (noted.filter Prod.snd).map Prod.fst

theorem queued_of_all {noted : List (Offer × Bool)} (h : ∀ event ∈ noted, event.2 = true) :
    queued noted = noted.map Prod.fst := by
  rw [queued, filter_eq_self.mpr h]

/-- A call along which the watch stays, still asking for every change of names. -/
def FollowingStep (key : ℕ) (id : UInt32) (dir : ℕ) (before next : State) : Prop :=
  system.step before next ∧ next.Follows key id dir

/-- What the watch heard since replays to what the directory lists. -/
theorem replay_of_following {key : ℕ} {dir : ℕ} (hreach : system.Reachable start)
    {old : Watcher} (hold : start.watchers[key]? = some old)
    (hrun : ReflTransGen (FollowingStep key id dir) start s') :
    system.Reachable s' ∧ ∃ new noted, s'.watchers[key]? = some new ∧ new.queue.history =
      old.queue.history ++ noted ∧
      Listing.replay (newsOf id (noted.map Prod.fst)) (start.core.listing dir) = s'.core.listing dir := by
  induction hrun with
  | refl => exact ⟨hreach, old, [], hold, by simp, rfl⟩
  | @tail middle next _ hstep ih =>
    obtain ⟨hmiddle, between, noted, hbetween, hhistory, hreplay⟩ := ih
    obtain ⟨hcall, w, hwatcher, hfollows⟩ := hstep
    have hsteady := steady_of_reachable hmiddle
    refine ⟨hmiddle.of_step hcall, w, ?_⟩
    obtain ⟨env, call, honest, htrusted, rfl⟩ := hcall
    rw [hsteady.acquire_eq] at hwatcher ⊢
    obtain ⟨more, hmore, hnews⟩ :=
      (hsteady.attends honest htrusted).replays key between w id dir hbetween hwatcher hfollows
    refine ⟨noted ++ more, hwatcher, by rw [hmore, hhistory, append_assoc], ?_⟩
    rw [map_append, newsOf_append, Listing.replay_append, hreplay, hnews]

/-- A watch that asks for every change of names follows the directory its path names: as long as it
lives and asks for no less, and no event of its watcher is dropped, the events about names that were
queued since it was added turn what the directory listed then into what it lists now. -/
theorem replay_of_watch (hreach : system.Reachable s) (honest : env.Honest s) {handle : ℕ} {path : Bytes}
    {events id : UInt32} (htrusted : (Call.addWatch handle path events).Trusted s)
    (hadd : exec env (.addWatch handle path events) s = .ok (.watch id) start)
    (hevents : events &&& nameKinds = nameKinds) :
    ∃ key dir old, s.handles[handle]? = some (.watcher key) ∧
      Files.resolve path (events &&& Watches.noFollow = 0) s = .ok dir ∧
      start.watchers[key]? = some old ∧ old.Follows id dir ∧
      ∀ s', ReflTransGen (FollowingStep key id dir) start s' →
        ∃ new noted, s'.watchers[key]? = some new ∧ new.queue.history = old.queue.history ++ noted ∧
          ((∀ event ∈ noted, event.2 = true) →
            Listing.replay (newsOf id (queued noted)) (start.listing dir) = s'.listing dir) := by
  have h := steady_of_reachable hreach
  obtain ⟨key, node, before, old, hhandle, hresolve, _, hold, hadded⟩ :=
    h.addWatch_cases honest htrusted hadd
  have hstart : system.Reachable start := by
    refine hreach.of_step ⟨env, _, honest, htrusted, ?_⟩
    rw [h.acquire_eq, after_of_ok hadd]
  have hasks : (events &&& requestable) &&& nameKinds = nameKinds := by
    rw [UInt32.and_assoc, show requestable &&& nameKinds = nameKinds from by decide, hevents]
  have hfollows : old.Follows id node := by
    rcases Watches.added_cases hadded with ⟨i, known, hknown, hnode, rfl, rfl⟩
      | ⟨_, _, rfl, watches, hdata, rfl⟩
    · obtain ⟨hindex, _⟩ := List.getElem?_eq_some_iff.mp hknown
      exact ⟨{ known with events := events &&& requestable }, mem_set hindex _, rfl, hnode, hasks⟩
    · exact ⟨_, by rw [hdata]; exact mem_append_right _ (mem_singleton.mpr rfl), rfl, rfl, hasks⟩
  refine ⟨key, node, old, hhandle, hresolve, hold, hfollows, fun s' hrun ↦ ?_⟩
  obtain ⟨_, new, noted, hnew, hhistory, hreplay⟩ := replay_of_following hstart hold hrun
  refine ⟨new, noted, hnew, hhistory, fun hqueued ↦ ?_⟩
  rw [queued_of_all hqueued, ← listing_core, ← listing_core]
  exact hreplay

/-- A watch of the link `/b` follows `/a`, where a directory is made and the file gets another name. -/
theorem replay_of_watch_populated : ∃ start s' noted,
    exec (granting 40) (.addWatch 24 [47, 98] nameKinds) populated = .ok (.watch 2) start ∧
    granted [(40, .createDirectory [47, 97, 47, 120] 0o777),
      (40, .rename [47, 97, 47, 99] [47, 97, 47, 121])] start =
      some s' ∧
    (queued noted).length = 3 ∧ Listing.replay (newsOf 2 (queued noted)) (start.listing 2) = s'.listing 2 ∧
    s'.listing 2 [99] = none ∧ s'.listing 2 [120] = some true ∧ s'.listing 2 [121] = some false := by
  have hallowed :=
    allowed_of_callable (show callable 40 (.addWatch 24 [47, 98] nameKinds) populated from rfl)
  have hadd : exec (granting 40) (.addWatch 24 [47, 98] nameKinds) populated = .ok (.watch 2) _ := rfl
  obtain ⟨key, dir, old, hhandle, hdir, hold, _, hruns⟩ :=
    replay_of_watch reachable_populated hallowed.1 hallowed.2 hadd (by decide)
  cases hhandle
  cases hdir
  have hstart := reachable_populated.of_step ⟨_, _, hallowed.1, hallowed.2, rfl⟩
  have hcreate := (steady_of_reachable hstart).step_granting
    (show callable 40 (.createDirectory [47, 97, 47, 120] 0o777) _ from rfl)
  have hrename := (steady_of_reachable (hstart.of_step hcreate)).step_granting
    (show callable 40 (.rename [47, 97, 47, 99] [47, 97, 47, 121]) _ from rfl)
  obtain ⟨new, noted, hnew, hhistory, hreplay⟩ :=
    hruns _ (.tail (.tail .refl ⟨hcreate, _, rfl, _, .tail _ (.head _), rfl, rfl, rfl⟩)
      ⟨hrename, _, rfl, _, .tail _ (.head _), rfl, rfl, rfl⟩)
  have hnoted : noted = new.queue.history.drop old.queue.history.length := by
    rw [hhistory, drop_left]
  cases hold
  cases hnew
  cases hnoted
  exact ⟨_, _, _, hadd, rfl, rfl, hreplay (by decide), rfl, rfl, rfl⟩

end State

end DotnetPal.Memfs
