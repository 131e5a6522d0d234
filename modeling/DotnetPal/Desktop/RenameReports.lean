import DotnetPal.Desktop.DirectoryScans

/-!
# What a scan reports of renames

The report tells each match as MOVED_FROM at once followed by MOVED_TO with a cookie of its own, and
each half without the other as DELETE or CREATE. The cookies are given out in the order of the
entries that went.
-/

open Std

namespace DotnetPal.Desktop

open Programs

theorem cookieOf_ne_zero (last : ℕ) (diffs : List Difference) (p : ℕ × ℕ) : cookieOf last diffs p ≠ 0 := by
  rw [cookieOf, Function.iterate_succ_apply', cookieAfter]
  split_ifs <;> simp

theorem iterate_cookieAfter {last n : ℕ} (h : last + n ≤ maxWord) : cookieAfter^[n] last = last + n := by
  induction n with
  | zero => rfl
  | succ n ih =>
    rw [Function.iterate_succ_apply', ih (by omega), cookieAfter, if_neg (by omega), Nat.add_assoc]

theorem injOn_cookieOf {last : ℕ} {diffs : List Difference} (h : last + (halves diffs).length ≤ maxWord) :
    Set.InjOn (cookieOf last diffs) {p | p ∈ halves diffs} := by
  intro a ha b hb heq
  have hcookie {p : ℕ × ℕ} (hp : p ∈ halves diffs) :
      cookieOf last diffs p = last + ((halves diffs).idxOf p + 1) :=
    iterate_cookieAfter (by have := List.idxOf_lt_length_of_mem hp; omega)
  rw [hcookie ha, hcookie hb] at heq
  exact (List.idxOf_inj ha).mp (by omega)

/-- The watch of a difference wants all kinds of events that tell of entries, and ended in the
difference or is there. -/
def Heard (watches : List Watch) (diff : Difference) : Prop :=
  diff.ended = true ∧ WantsAll diff.wanted ∨
    diff.ended = false ∧ ∃ watch, KeyedList.find Watch.id diff.watch watches = some watch ∧
      WantsAll watch.events

section Heard

variable {watches : List Watch} {diff : Difference}

theorem Heard.wantsAll (h : Heard watches diff) : WantsAll (wantedOf watches diff) := by
  rcases h with ⟨hended, hwants⟩ | ⟨hlive, watch, hfind, hwants⟩
  · rwa [wantedOf, if_pos hended]
  · rwa [wantedOf, if_neg (by simp [hlive]), hfind]

theorem offered_of_kind {wanted kind : UInt32} (h : wanted &&& kind ≠ 0) (watch : ℕ) (info : Meta)
    (cookie : ℕ) (name : Name) :
    offered wanted ⟨watch, kind ||| info.mark, cookie, name, some info⟩ =
      [⟨watch, kind ||| info.mark, cookie, name, some info⟩] :=
  if_pos (wants_of_kind h)

end Heard

namespace Watcher

/-- After every look of a scan what went and what came is matched, which changes nothing else; what
was matched before stays so, and no two halves of one node are left. The report would tell each
match, where both watches are heard, as MOVED_FROM and at once MOVED_TO with one cookie, which no
other match has unless the counter wraps, and every other half as DELETE or CREATE. -/
theorem renames_of_reachable {w : Watcher} (hreach : machine.runs.Reachable w) {passes : ℕ}
    {targets : List ℕ} {diffs : List Difference}
    (hscanner : w.scanner = .looking passes targets diffs) {looks : List (ℕ × Look)} {seen : WatchState}
    {new paired : List Difference} (hcompare : w.state.compare looks = (seen, new))
    (hpaired : paired = pair (diffs ++ new)) :
    (Matching paired ∧ Settled paired ∧ paired.map Difference.bare = (diffs ++ new).map Difference.bare ∧
      ∀ source went, wentAt diffs source = some went → went.half ≠ none →
        wentAt paired source = some went) ∧
    ∃ cookie : ℕ × ℕ → ℕ, (∀ place, cookie place ≠ 0) ∧
      (seen.lastCookie + (halves paired).length ≤ maxWord →
        Set.InjOn cookie {place | place ∈ halves paired}) ∧
      (seen.report paired).offers = seen.offers ++ paired.flatMap (told cookie paired seen.watches) ∧
      ∀ diff ∈ paired, Heard seen.watches diff →
        (∀ went ∈ diff.went, ∀ place target came, went.half = some place → paired[place.1]? = some target →
          target.came[place.2]? = some came → Heard seen.watches target →
          wentTold cookie paired seen.watches diff went =
            [⟨diff.watch, Watches.movedFrom ||| went.info.mark, cookie place, went.name, some went.info⟩,
              ⟨target.watch, Watches.movedTo ||| came.info.mark, cookie place, came.name,
                some came.info⟩]) ∧
        (∀ went ∈ diff.went, went.half = none → wentTold cookie paired seen.watches diff went =
          [⟨diff.watch, Watches.delete ||| went.info.mark, 0, went.name, some went.info⟩]) ∧
        ∀ came ∈ diff.came, cameOffers seen.watches diff came =
          if came.renamed then []
            else [⟨diff.watch, Watches.create ||| came.info.mark, 0, came.name, some came.info⟩] := by
  have hbefore : Matching diffs := by
    simpa [hscanner, Scanner.unreported] using (steady_of_reachable hreach).matching
  have hnew : ∀ diff ∈ new, (∀ went ∈ diff.went, went.half = none) ∧
      ∀ came ∈ diff.came, came.renamed = false := by
    simpa [hcompare] using @fresh_compare w.state looks
  subst hpaired
  have hmatching := (hbefore.append hnew).pair
  refine ⟨⟨hmatching, settled_pair _, map_bare_pair _,
    fun source went hwent hhalf ↦ wentAt_pair_of_half ?_ hhalf⟩,
    cookieOf seen.lastCookie _, cookieOf_ne_zero _ _, injOn_cookieOf,
      (WatchState.adds_report hmatching seen).offers, fun diff _ hheard ↦ ?_⟩
  · obtain ⟨diff, hd, hg⟩ := Option.bind_eq_some_iff.mp hwent
    refine Option.bind_eq_some_iff.mpr ⟨diff, ?_, hg⟩
    rw [List.getElem?_append_left (List.getElem?_eq_some_iff.mp hd).1, hd]
  obtain ⟨hcreate, hdelete, hfrom, _⟩ := hheard.wantsAll
  refine ⟨fun went _ place target came hhalf htarget hcame htheirs ↦ ?_, 
    fun went _ hnone ↦ ?_, fun came _ ↦ ?_⟩
  · simp only [wentTold, wentOffers, hhalf, htarget, Option.bind_some, hcame, Option.map_some,
      offered_of_kind hfrom, offered_of_kind htheirs.wantsAll.2.2.2, List.map_cons, List.map_nil, List.singleton_append]
  · simp only [wentTold, wentOffers, hnone, offered_of_kind hdelete]
  · simp only [cameOffers, offered_of_kind hcreate]

/-- The entry of a directory is found under another name: it is matched and told as two events. -/
theorem renames_of_reachable_renamed : ∃ w passes targets seen new paired, machine.runs.Reachable w ∧
      w.scanner = .looking passes targets [] ∧
      w.state.compare [(1, .node (file 1) (some (ExtTreeMap.insert ∅ [98] (file 2))))] = (seen, new) ∧
      paired = pair ([] ++ new) ∧ Settled paired ∧ wentAt paired (0, 0) = some ⟨[97], file 2, some (0, 0)⟩ ∧
      (seen.report paired).offers =
        [⟨1, Watches.movedFrom, 1, [97], some (file 2)⟩, ⟨1, Watches.movedTo, 1, [98], some (file 2)⟩] := by
  have hrun := Machine.reachable_of_run
    (show machine.run (watching (ExtTreeMap.insert ∅ [97] (file 2)) ++ [.scan]) initial = some _ from rfl)
  exact ⟨_, _, _, _, _, _, hrun, rfl, Prod.mk.eta.symm, rfl,
    (renames_of_reachable hrun rfl Prod.mk.eta.symm rfl).1.2.1, rfl, rfl⟩

end Watcher

end DotnetPal.Desktop
