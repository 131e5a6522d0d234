import DotnetPal.Desktop.Matchings

/-!
# What a scan offers to the queue

The report of a scan as a list of events: for every difference what went, what came, what changed
and the end of the watch, each only where the watch wants it. This is what the report adds to the
events offered; the cookies of renames are given out in the order of the entries that went. Pairing
changes nothing but the two marks of a rename.
-/

open Std List Function

namespace DotnetPal.Desktop

open WatchOffer

/-- An event without its cookie. -/
def WatchOffer.plain (offer : WatchOffer) : WatchOffer := { offer with cookie := 0 }

/-- The event that says a watch ended. -/
def WatchOffer.ending (watch : ℕ) : WatchOffer := ⟨watch, Watches.removed, 0, [], none⟩

def WatchOffer.ends (offer : WatchOffer) : Bool := offer.events &&& Watches.removed ≠ 0

/-! ## Bits of events -/

theorem or_and_eq_zero (a b bits : UInt32) :
    (a ||| b) &&& bits = 0 ↔ a &&& bits = 0 ∧ b &&& bits = 0 := by
  have hdistrib : (a ||| b) &&& bits = (a &&& bits) ||| (b &&& bits) := by
    rw [← UInt32.toBitVec_inj]
    ext i
    simp [Bool.and_or_distrib_right]
  rw [hdistrib, UInt32.or_eq_zero_iff]

/-- A watch wants the events of a kind it asked for. -/
theorem wants_of_kind {wanted kind mark : UInt32} (h : wanted &&& kind ≠ 0) :
    wants wanted (kind ||| mark) = true := by
  rw [wants, decide_eq_true_eq]
  intro hzero
  have hkind := ((or_and_eq_zero _ _ _).mp hzero).1
  rw [UInt32.and_comm, or_and_eq_zero] at hkind
  exact h hkind.1

/-- A watch that is no more wants nothing but its end. -/
theorem wants_zero {events : UInt32} (h : events &&& Watches.removed = 0) : wants 0 events = false := by
  simp [wants, h]

/-- The mark of a directory changes no bit but its own. -/
theorem and_mark_eq_zero (found : Meta) {kind bits : UInt32} (hkind : kind &&& bits = 0)
    (hmark : Watches.directory &&& bits = 0) :
    (kind ||| found.mark) &&& bits = 0 := by
  refine (or_and_eq_zero _ _ _).mpr ⟨hkind, ?_⟩
  unfold Meta.mark
  split_ifs
  · exact hmark
  · exact UInt32.zero_and

theorem and_changes_eq_zero (kinds : UInt32) {kind bits : UInt32} (hkind : kind &&& bits = 0)
    (hmark : Watches.directory &&& bits = 0) : (kind ||| (kinds &&& Watches.directory)) &&& bits = 0 := by
  refine (or_and_eq_zero _ _ _).mpr ⟨hkind, ?_⟩
  rw [UInt32.and_assoc, hmark, UInt32.and_zero]

/-! ## The report as a list -/

/-- An event, where it is wanted. -/
def offered (wanted : UInt32) (offer : WatchOffer) : List WatchOffer :=
  if wants wanted offer.events then [offer] else []

theorem offered_ending (watch : ℕ) : offered 0 (ending watch) = [ending watch] :=
  if_pos (show wants 0 Watches.removed = true by decide)

/-- What the watch of a difference wants, of the watches there are. -/
def wantedOf (watches : List Watch) (diff : Difference) : UInt32 :=
  if diff.ended then diff.wanted
  else ((KeyedList.find Watch.id diff.watch watches).map (·.events)).getD 0

section Offers

variable (ds : List Difference) (watches : List Watch) (diff : Difference)

def wentOffers (went : Went) : List WatchOffer :=
  match went.half with
  | some (d, c) =>
    match ds[d]?.bind fun target ↦ target.came[c]?.map (target, ·) with
    | some (target, came) =>
      offered (wantedOf watches diff)
          ⟨diff.watch, Watches.movedFrom ||| went.info.mark, 0, went.name, some went.info⟩ ++
        offered (wantedOf watches target)
          ⟨target.watch, Watches.movedTo ||| came.info.mark, 0, came.name, some came.info⟩
    | none => []
  | none =>
    offered (wantedOf watches diff) ⟨diff.watch, Watches.delete ||| went.info.mark, 0, went.name,
      some went.info⟩

def cameOffers (came : Came) : List WatchOffer :=
  if came.renamed then []
  else offered (wantedOf watches diff)
    ⟨diff.watch, Watches.create ||| came.info.mark, 0, came.name, some came.info⟩

def changeOffers (change : Name × UInt32) : List WatchOffer :=
  [Watches.modify, Watches.attributes].flatMap fun kind ↦
    if change.2 &&& kind ≠ 0 then
      offered (wantedOf watches diff)
        ⟨diff.watch, kind ||| (change.2 &&& Watches.directory), 0, change.1, none⟩
    else []

/-- What the report of one difference offers before the end of its watch. -/
def bodyOffers : List WatchOffer :=
  diff.went.flatMap (wentOffers ds watches diff) ++ diff.came.flatMap (cameOffers watches diff) ++
    (diff.changed ++ [([], diff.own)]).flatMap (changeOffers watches diff)

def offersOf : List WatchOffer :=
  bodyOffers ds watches diff ++ if diff.ended then [ending diff.watch] else []

end Offers

/-! ## Cookies -/

/-- The cookie after a cookie. -/
def cookieAfter (last : ℕ) : ℕ := if last = maxWord then 1 else last + 1

/-- The cookie of the rename whose second half came at a place. -/
def cookieOf (last : ℕ) (ds : List Difference) (place : ℕ × ℕ) : ℕ :=
  cookieAfter^[(halves ds).idxOf place + 1] last

section Told

variable (cookie : ℕ × ℕ → ℕ) (ds : List Difference) (watches : List Watch) (diff : Difference)

/-- What is told of an entry that went. -/
def wentTold (went : Went) : List WatchOffer :=
  match went.half with
  | some place => (wentOffers ds watches diff went).map ({ · with cookie := cookie place })
  | none => wentOffers ds watches diff went

/-- What is told of a difference. -/
def told : List WatchOffer :=
  diff.went.flatMap (wentTold cookie ds watches diff) ++ diff.came.flatMap (cameOffers watches diff) ++
    (diff.changed ++ [([], diff.own)]).flatMap (changeOffers watches diff) ++
    if diff.ended then [ending diff.watch] else []

end Told

/-- A part of the report offers a list, gives out so many cookies, and leaves everything else but
the queue alone; the queue takes the list unless events are lost. -/
structure Adds (count : ℕ) (s s' : WatchState) (added : List WatchOffer) : Prop where
  watches : s'.watches = s.watches
  lastId : s'.lastId = s.lastId
  lastCookie : s'.lastCookie = cookieAfter^[count] s.lastCookie
  offers : s'.offers = s.offers ++ added
  queue : s'.lost = false → s.lost = false ∧ s'.queue = s.queue ++ added

namespace Adds

variable {s middle s' : WatchState} {offers later : List WatchOffer} {count more : ℕ}

theorem refl (s : WatchState) : Adds 0 s s [] := ⟨rfl, rfl, rfl, by simp, fun hlost ↦ ⟨hlost, by simp⟩⟩

theorem trans (h : Adds count s middle offers) (hlater : Adds more middle s' later) :
    Adds (more + count) s s' (offers ++ later) where
  watches := hlater.watches.trans h.watches
  lastId := hlater.lastId.trans h.lastId
  lastCookie := by rw [hlater.lastCookie, h.lastCookie, iterate_add_apply]
  offers := by rw [hlater.offers, h.offers, append_assoc]
  queue := by
    intro hlost
    obtain ⟨hmiddle, hqueue⟩ := hlater.queue hlost
    obtain ⟨hstate, ha⟩ := h.queue hmiddle
    exact ⟨hstate, by rw [hqueue, ha, append_assoc]⟩

/-- Parts that offer a list each offer the lists one after the other. -/
theorem foldl {α : Type} {step : WatchState → α → WatchState} (each : List Watch → α → List WatchOffer)
    (h : ∀ s item, Adds 0 s (step s item) (each s.watches item)) (items : List α) (s : WatchState) :
    Adds 0 s (items.foldl step s) (items.flatMap (each s.watches)) := by
  induction items generalizing s with
  | nil => exact refl s
  | cons item rest ih =>
    have hrest := ih (step s item)
    rw [(h s item).watches] at hrest
    exact (h s item).trans hrest

theorem push (wanted : UInt32) (offer : WatchOffer) (s : WatchState) :
    Adds 0 s (s.push wanted offer) (offered wanted offer) := by
  unfold WatchState.push WatchState.enqueue offered
  split_ifs with _ _ hlost
  · exact ⟨rfl, rfl, rfl, by simp, fun hkept ↦ absurd (hlost.symm.trans hkept) (by decide)⟩
  · exact ⟨rfl, rfl, rfl, by simp, fun hkept ↦ absurd hkept (by simp)⟩
  · exact ⟨rfl, rfl, rfl, by simp, fun hkept ↦ ⟨hkept, rfl⟩⟩
  · exact ⟨rfl, rfl, rfl, by simp, fun hkept ↦ ⟨hkept, by simp⟩⟩

end Adds

namespace WatchState

theorem adds_reportCame (diff : Difference) (s : WatchState) (came : Came) :
    Adds 0 s (s.reportCame diff came) (cameOffers s.watches diff came) := by
  unfold reportCame cameOffers
  split_ifs
  · exact Adds.refl s
  · exact Adds.push ..

theorem adds_reportChanges (diff : Difference) (s : WatchState) (change : Name × UInt32) :
    Adds 0 s (s.reportChanges diff change) (changeOffers s.watches diff change) := by
  refine Adds.foldl (fun watches kind ↦ if change.2 &&& kind ≠ 0 then offered (wantedOf watches diff)
    ⟨diff.watch, kind ||| (change.2 &&& Watches.directory), 0, change.1, none⟩ else [])
      (fun s kind ↦ ?_) _ s
  unfold reportChange
  split_ifs
  · exact Adds.push ..
  · exact Adds.refl s

variable {all : List Difference} {last : ℕ} {s : WatchState} {done : List (ℕ × ℕ)} {diff : Difference}

variable {rest : List (ℕ × ℕ)}

variable (hmatching : Matching all)
include hmatching

/-- The rename whose entry went next has the next cookie. -/
theorem nextCookie_eq {p : ℕ × ℕ} (hall : halves all = done ++ p :: rest)
    (hlast : s.lastCookie = cookieAfter^[done.length] last) : s.nextCookie = cookieOf last all p := by
  have hnew : p ∉ done := fun hmem ↦
    (nodup_append.mp (hall ▸ hmatching.once)).2.2 p hmem p mem_cons_self rfl
  rw [cookieOf, hall, idxOf_append_of_notMem hnew, idxOf_cons_self, Nat.add_zero,
    iterate_succ_apply', ← hlast]
  rfl

theorem adds_reportWents (hmem : diff ∈ all) {list : List Went} (hlist : list ⊆ diff.went)
    (hall : halves all = done ++ (list.filterMap (·.half) ++ rest))
    (hlast : s.lastCookie = cookieAfter^[done.length] last) :
    Adds (list.filterMap (·.half)).length s (list.foldl (reportWent all diff) s)
      (list.flatMap (wentTold (cookieOf last all) all s.watches diff)) := by
  induction list generalizing s done with
  | nil => exact .refl s
  | cons went later ih =>
    have hlater : later ⊆ diff.went := fun item hitem ↦ hlist (mem_cons_of_mem _ hitem)
    cases hhalf : went.half with
    | none =>
      have ha : Adds 0 s (s.reportWent all diff went)
        (wentTold (cookieOf last all) all s.watches diff went) := by
        simp only [reportWent, wentTold, wentOffers, hhalf]
        exact .push ..
      rw [filterMap_cons_none hhalf] at hall ⊢
      have hrest := ih hlater hall (ha.lastCookie.trans hlast)
      rw [ha.watches] at hrest
      exact ha.trans hrest
    | some p =>
      obtain ⟨target, came, htarget, hcame⟩ := hmatching.half_of_mem hmem (hlist mem_cons_self) hhalf
      rw [filterMap_cons_some hhalf] at hall ⊢
      have hcookie := nextCookie_eq hmatching hall hlast
      have ha : Adds 1 s (s.reportWent all diff went)
        (wentTold (cookieOf last all) all s.watches diff went) := by
        have hstamp (wanted : UInt32) (offer : WatchOffer) (cookie : ℕ) :
            (offered wanted offer).map ({ · with cookie := cookie }) =
              offered wanted { offer with cookie := cookie } := by
          unfold offered
          split <;> rfl
        have hstart : Adds 1 s { s with lastCookie := cookieOf last all p } [] :=
          ⟨rfl, rfl, hcookie.symm, (append_nil _).symm, fun hlost ↦ ⟨hlost, (append_nil _).symm⟩⟩
        simp only [reportWent, wentTold, wentOffers, hhalf, htarget, Option.bind_some, hcame,
          Option.map_some, hcookie, map_append, hstamp]
        exact (hstart.trans (.push ..)).trans (.push ..)
      have hrest := ih hlater (show halves all = (done ++ [p]) ++ _ by simpa using hall) (by
        rw [ha.lastCookie, hlast, length_append, ← iterate_add_apply, Nat.add_comm]
        rfl)
      rw [ha.watches] at hrest
      exact ha.trans hrest

theorem adds_reportOne (hmem : diff ∈ all)
    (hall : halves all = done ++ (diff.went.filterMap (·.half) ++ rest))
    (hlast : s.lastCookie = cookieAfter^[done.length] last) :
    Adds (diff.went.filterMap (·.half)).length s (s.reportOne all diff)
    (told (cookieOf last all) all s.watches diff) := by
  have hwent := adds_reportWents hmatching hmem (fun _ h ↦ h) hall hlast
  have hcame := Adds.foldl (fun watches ↦ cameOffers watches diff) (adds_reportCame diff) diff.came
    (diff.went.foldl (reportWent all diff) s)
  rw [hwent.watches] at hcame
  have hbody := hwent.trans hcame
  have hchanged := Adds.foldl (fun watches ↦ changeOffers watches diff) (adds_reportChanges diff)
    (diff.changed ++ [([], diff.own)])
    (diff.came.foldl (reportCame diff) (diff.went.foldl (reportWent all diff) s))
  rw [hbody.watches] at hchanged
  have hreport := hbody.trans hchanged
  rw [Nat.zero_add, Nat.zero_add] at hreport
  unfold reportOne told
  split_ifs
  · have hended := hreport.trans (Adds.push 0 (ending diff.watch) _)
    rwa [Nat.zero_add, offered_ending] at hended
  · rwa [append_nil]

/-- The report offers what its differences call for, one after the other. -/
theorem adds_report (s : WatchState) :
    Adds (halves all).length s (s.report all)
    (all.flatMap (told (cookieOf s.lastCookie all) all s.watches)) := by
  suffices hpart : ∀ (list : List Difference) (done : List (ℕ × ℕ)) (now : WatchState), list ⊆ all →
      halves all = done ++ halves list → now.lastCookie = cookieAfter^[done.length] s.lastCookie →
      Adds (halves list).length now (list.foldl (reportOne all) now)
        (list.flatMap (told (cookieOf s.lastCookie all) all now.watches)) from
    hpart all [] s (fun _ h ↦ h) rfl rfl
  intro list
  induction list with
  | nil => exact fun _ now _ _ _ ↦ .refl now
  | cons a rest ih =>
    intro done now hlist hall hlast
    have ha := adds_reportOne hmatching (hlist mem_cons_self) hall hlast
    have hrest :=
      ih (done ++ a.went.filterMap (·.half)) (now.reportOne all a) (fun _ h ↦ hlist (mem_cons_of_mem _ h))
      (by rw [hall, append_assoc]; rfl) (by
        rw [ha.lastCookie, hlast, length_append, ← iterate_add_apply, Nat.add_comm])
    rw [ha.watches] at hrest
    have hboth := ha.trans hrest
    rw [Nat.add_comm, ← length_append] at hboth
    exact hboth

end WatchState

@[simp]
theorem map_plain_offered (wanted : UInt32) (offer : WatchOffer) :
    (offered wanted offer).map plain = offered wanted offer.plain := by
  have hevents : offer.plain.events = offer.events := rfl
  rw [offered, offered, hevents]
  split <;> rfl

/-- Cookies aside, what is told of the differences is what they call for. -/
theorem map_plain_told (cookie : ℕ × ℕ → ℕ) (all list : List Difference) (watches : List Watch) :
    (list.flatMap (told cookie all watches)).map plain = list.flatMap (offersOf all watches) := by
  have hwent (diff : Difference) (went : Went) :
      (wentTold cookie all watches diff went).map plain = wentOffers all watches diff went := by
    have hplain : (wentOffers all watches diff went).map plain = wentOffers all watches diff went := by
      unfold wentOffers
      repeat' split
      all_goals simp [plain]
    unfold wentTold
    split
    · rw [map_map]
      exact hplain
    · exact hplain
  have hcame (diff : Difference) (came : Came) :
      (cameOffers watches diff came).map plain = cameOffers watches diff came := by
    unfold cameOffers
    split <;> simp [plain]
  have hchange (diff : Difference) (change : Name × UInt32) :
      (changeOffers watches diff change).map plain = changeOffers watches diff change := by
    rw [changeOffers, map_flatMap]
    congr 1
    funext kind
    split <;> simp [plain]
  rw [map_flatMap]
  congr 1
  funext diff
  simp only [told, offersOf, bodyOffers, map_append, map_flatMap, hwent, hcame, hchange]
  split <;> rfl

/-! ## Who an event is for -/

section Recipients

variable {ds : List Difference} {watches : List Watch} {diff : Difference} {offer found : WatchOffer}

/-- An event other than an end goes to a watch there is, or to the one whose end the
difference tells. -/
theorem recipient_of_offered (hevents : offer.events &&& Watches.removed = 0)
    (hwatch : offer.watch = diff.watch) (hmem : found ∈ offered (wantedOf watches diff) offer) :
    found.ends = false ∧
      ((∃ watch ∈ watches, watch.id = found.watch) ∨ (diff.ended = true ∧ found.watch = diff.watch)) := by
  unfold offered at hmem
  split_ifs at hmem with hwants
  · obtain rfl := mem_singleton.mp hmem
    refine ⟨by simp [ends, hevents], ?_⟩
    by_cases hended : diff.ended = true
    · exact .inr ⟨hended, hwatch⟩
    · left
      cases hfind : KeyedList.find Watch.id diff.watch watches with
      | none =>
        rw [wantedOf, if_neg hended, hfind, Option.map_none, Option.getD_none, wants_zero hevents] at hwants
        cases hwants
      | some watch =>
        refine ⟨watch, mem_of_find?_eq_some hfind, ?_⟩
        rw [hwatch]
        simpa using find?_some hfind
  · cases hmem

/-- Nothing that came belongs to a watch that ended, so no second half of a rename goes to one. -/
theorem recipient_of_body (hcame : ∀ j ∈ ds, j.ended = true → j.came = [])
    (hmem : found ∈ bodyOffers ds watches diff) :
    found.ends = false ∧
      ((∃ watch ∈ watches, watch.id = found.watch) ∨ (diff.ended = true ∧ found.watch = diff.watch)) := by
  simp only [bodyOffers, mem_append, mem_flatMap] at hmem
  rcases hmem with (⟨went, _, hwent⟩ | ⟨came, _, hcome⟩) | ⟨change, _, hchange⟩
  · cases hhalf : went.half with
    | none =>
      rw [wentOffers, hhalf] at hwent
      exact recipient_of_offered (and_mark_eq_zero _ (by decide) (by decide)) rfl hwent
    | some p =>
      cases htarget : ds[p.1]?.bind fun target ↦ target.came[p.2]?.map (target, ·) with
      | none => simp [wentOffers, hhalf, htarget] at hwent
      | some half =>
        simp only [wentOffers, hhalf, htarget, mem_append] at hwent
        rcases hwent with hfrom | hinto
        · exact recipient_of_offered (and_mark_eq_zero _ (by decide) (by decide)) rfl hfrom
        · obtain ⟨target, htaken, hp⟩ := Option.bind_eq_some_iff.mp htarget
          obtain ⟨came, hcamed, rfl⟩ := Option.map_eq_some_iff.mp hp
          have hended : target.ended = false := by
            by_contra hended
            rw [hcame target (mem_of_getElem? htaken) (by simpa using hended)] at hcamed
            cases hcamed
          obtain ⟨hends, hlive | ⟨hj, _⟩⟩ :=
            recipient_of_offered (and_mark_eq_zero _ (by decide) (by decide)) rfl hinto
          · exact ⟨hends, .inl hlive⟩
          · cases hended.symm.trans hj
  · unfold cameOffers at hcome
    split_ifs at hcome
    · cases hcome
    · exact recipient_of_offered (and_mark_eq_zero _ (by decide) (by decide)) rfl hcome
  · simp only [changeOffers, mem_flatMap, mem_cons, not_mem_nil, or_false] at hchange
    obtain ⟨kind, hkind, hoffer⟩ := hchange
    split_ifs at hoffer
    · refine recipient_of_offered (and_changes_eq_zero _ ?_ (by decide)) rfl hoffer
      rcases hkind with rfl | rfl <;> decide
    · cases hoffer

end Recipients

/-! ## What pairing leaves alone -/

def Went.bare (went : Went) : Went := { went with half := none }

def Came.bare (came : Came) : Came := { came with renamed := false }

/-- A difference without the marks of renames. -/
def Difference.bare (diff : Difference) : Difference :=
  { diff with went := diff.went.map Went.bare, came := diff.came.map Came.bare }

theorem map_bare_pairWent (went : List Went) (ws : List Arrival) :
    (pairWent went ws).1.map Went.bare = went.map Went.bare := by
  induction went generalizing ws with
  | nil => rfl
  | cons a rest ih =>
    rw [pairWent]
    split
    · simp only [map_cons, ih]
      rfl
    · simp only [map_cons, ih]

theorem map_bare_pairDifferences (ds : List Difference) (ws : List Arrival) :
    (pairDifferences ds ws).1.map Difference.bare = ds.map Difference.bare := by
  induction ds generalizing ws with
  | nil => rfl
  | cons a rest ih => simp only [pairDifferences, map_cons, ih, Difference.bare, map_bare_pairWent]

theorem map_bare_markRenamed (old left : List Arrival) (ds : List Difference) :
    (markRenamed old left ds).map Difference.bare = ds.map Difference.bare := by
  apply ext_getElem?
  intro d
  simp only [markRenamed, getElem?_map, getElem?_mapIdx, Option.map_map]
  congr 1
  funext diff
  simp only [comp_apply, Difference.bare, Difference.mk.injEq, true_and, and_true]
  apply ext_getElem?
  intro c
  simp only [getElem?_map, getElem?_mapIdx, Option.map_map]
  rfl

theorem map_bare_pair (ds : List Difference) : (pair ds).map Difference.bare = ds.map Difference.bare :=
  (map_bare_markRenamed ..).trans (map_bare_pairDifferences ..)

end DotnetPal.Desktop
