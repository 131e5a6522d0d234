import DotnetPal.Foundations.Machines
import DotnetPal.Wasm.FreeList

/-!
# The grown memory over whole runs

The calls of `Grow` with the blocks that are out. In every run the free blocks and the blocks that
are out tile the memory that was grown, so neither a byte nor a record is lost and no assertion of
the source fails.
-/

namespace DotnetPal.Wasm

open Programs Spans
open DotnetPal.Span (weight weight_add)

/-! ## One call -/

variable {block : Span}

section

variable {heap : Heap} {granted : Bool} {size align : ℕ}

/-- What a heap keeps by itself: a gapped list that fits its records, below the end of the memory. -/
structure Heap.Sound (heap : Heap) : Prop where
  gapped : Gapped heap.list
  records : heap.list.length ≤ maxFree
  above : ∀ byte, heap.top ≤ byte → load heap.list byte = 0
  below : heap.top < addresses

theorem Heap.wanted_eq_some {pages : ℕ} (h : heap.wanted size align = some pages) :
    heap.list.length ≠ maxFree ∧ pages ≠ 0 := by
  simp only [Heap.wanted, Option.bind_eq_bind, Option.bind_eq_some_iff] at h
  obtain ⟨_, _, _, _, hpages⟩ := h
  split at hpages
  · simp at hpages
  · rename_i hroom
    rw [not_or] at hroom
    exact ⟨hroom.1, Option.some.inj hpages ▸ hroom.2⟩

/-- Growing fails without an effect, or adds the pages that were asked for to the list. -/
theorem grow_spec (hs : heap.Sound) (granted : Bool) (size align : ℕ) :
    (heap.wanted size align = none ∨ granted = false) ∧ grow granted size align heap =
      (.error Error.outOfMemory, heap) ∨
      ∃ pages list, heap.wanted size align = some pages ∧
        grow granted size align heap = (.ok (), ⟨list, heap.pages + pages⟩) ∧
        insert heap.list heap.top (pages * page) = some list ∧
          Added heap.list ⟨heap.top, pages * page⟩ list := by
  unfold grow
  cases hwanted : heap.wanted size align with
  | none => exact .inl ⟨.inl rfl, rfl⟩
  | some pages =>
    obtain ⟨hroom, hpages⟩ := Heap.wanted_eq_some hwanted
    have hmin : min heap.top (addresses - 1) = heap.top := Nat.min_eq_left (Nat.le_sub_one_of_lt hs.below)
    cases granted with
    | false => exact .inl ⟨.inr rfl, rfl⟩
    | true =>
      have hclear : Clear heap.list ⟨heap.top, pages * page⟩ := fun byte hbyte ↦ hs.above byte hbyte.1
      have hpos : 0 < pages * page := Nat.mul_pos (Nat.pos_of_ne_zero hpages) (by decide)
      rcases insert_spec hs.gapped hpos hclear with ⟨_, hfull⟩ | ⟨list, hlist, hadded⟩
      · exact absurd hfull hroom
      · refine .inr ⟨pages, list, rfl, ?_, hlist, hadded⟩
        simp only [if_true, hmin, ne_eq, not_true, if_false, hlist, asserted]

/-- The bytes that an answer hands out. -/
def taken (size : ℕ) : Except Fault ℕ → List Span
  | .ok start => [⟨start, size⟩]
  | .error _ => []

/-- What an allocation leaves: the memory may have grown, the bytes it handed out have left the
list, and nothing else has changed. -/
structure Allocated (size align : ℕ) (heap : Heap) (result : Except Fault ℕ × Heap) : Prop where
  gapped : Gapped result.2.list
  records : result.2.list.length ≤ maxFree
  pages : heap.pages ≤ result.2.pages
  load_eq : ∀ byte, load (result.2.list ++ taken size result.1) byte =
    load heap.list byte + weight ⟨heap.top, result.2.top - heap.top⟩ byte
  calm : result.1 ≠ .error .panic
  aligned : ∀ start, result.1 = .ok start → 0 < size ∧ align ∣ start

theorem Allocated.refused (hs : heap.Sound) {fault : Fault} (hcalm : fault ≠ .panic) :
    Allocated size align heap (.error fault, heap) where
  gapped := hs.gapped
  records := hs.records
  pages := le_rfl
  load_eq byte := by simp [taken, Span.weight_zero]
  calm h := hcalm (Except.error.inj h)
  aligned _ h := nomatch h

/-- What first fit takes out of the list, in a heap that has grown before or has not. -/
theorem Allocated.of_take {grown : Heap} {start : ℕ} {left : List Span} (hpages : heap.pages ≤ grown.pages)
    (hload : ∀ byte, load grown.list byte = load heap.list byte +
      weight ⟨heap.top, grown.top - heap.top⟩ byte)
    (hsize : 0 < size) (hdvd : align ∣ start) (hgapped : Gapped left) (hn : left.length ≤ maxFree)
    (hleft : ∀ byte, load grown.list byte = load left byte + weight ⟨start, size⟩ byte) :
    Allocated size align heap (.ok start, { grown with list := left }) where
  gapped := hgapped
  records := hn
  pages := hpages
  load_eq byte := by
    have hbyte := hload byte
    rw [hleft] at hbyte
    simpa [taken, Heap.top] using hbyte
  calm h := nomatch h
  aligned _ h := Except.ok.inj h ▸ ⟨hsize, hdvd⟩

/-- An allocation keeps the assertions of `take` and `grow`. -/
theorem allocate_spec (hs : heap.Sound) (granted : Bool) (size align : ℕ) :
    Allocated size align heap (allocate granted size align heap) := by
  unfold allocate
  split
  · exact .refused hs (by decide)
  · rename_i hvalid
    rw [not_or, Decidable.not_not] at hvalid
    have hsize : 0 < size := Nat.pos_of_ne_zero hvalid.1
    rcases take_spec hs.gapped hs.records hvalid.2 size with
      ⟨htake, _⟩ | ⟨_, _, start, left, _, htake, hdvd, hgapped, hn, hleft⟩
    · rw [htake]
      rcases grow_spec hs granted size align with ⟨_, hgrow⟩ | ⟨pages, list, hwanted, hgrow, _, hadded⟩
      · rw [hgrow]
        exact .refused hs (by decide)
      · rw [hgrow]
        have hroom := (Heap.wanted_eq_some hwanted).1
        have hrecords := hs.records
        have hlen : list.length ≤ maxFree := by
          have hle := hadded.length_le
          omega
        have htop : (heap.pages + pages) * page - heap.top = pages * page := by
          rw [Nat.add_mul, Heap.top, Nat.add_sub_cancel_left]
        have hload : ∀ byte, load list byte = load heap.list byte +
            weight ⟨heap.top, (heap.pages + pages) * page - heap.top⟩ byte := by
          rw [htop]
          exact hadded.load_eq
        rcases take_spec hadded.gapped hlen hvalid.2 size with
          ⟨hagain, _⟩ | ⟨_, _, start, left, _, hagain, hdvd, hgapped, hn, hleft⟩
        · simp only [hagain]
          exact ⟨hadded.gapped, hlen, Nat.le_add_right _ _,
            fun byte ↦ by simpa [taken, Heap.top] using hload byte,
            (fun h ↦ nomatch h), (fun _ h ↦ nomatch h)⟩
        · simp only [hagain]
          have hmore : heap.pages ≤ (⟨list, heap.pages + pages⟩ : Heap).pages := Nat.le_add_right _ _
          exact .of_take hmore hload hsize hdvd hgapped hn hleft
    · rw [htake]
      exact .of_take le_rfl (fun byte ↦ by rw [Nat.sub_self, Span.weight_zero, Nat.add_zero]) hsize
        hdvd hgapped hn hleft

/-- Giving back a block that is not in the list adds it, or fails without an effect because the
list is full. -/
theorem release_spec (hgapped : Gapped heap.list) (hsize : 0 < block.size)
    (hclear : Clear heap.list block) :
    (∃ error : Error, release block.base block.size heap = (.error error, heap)) ∨
      ∃ list, release block.base block.size heap = (.ok (), { heap with list := list }) ∧
        Added heap.list block list := by
  unfold release
  split
  · exact .inl ⟨.invalidArgument, rfl⟩
  · rcases insert_spec hgapped hsize hclear with ⟨hfull, _⟩ | ⟨list, hlist, hadded⟩
    · rw [hfull]
      exact .inl ⟨.os, rfl⟩
    · rw [hlist]
      exact .inr ⟨list, rfl, hadded⟩

end

/-! ## Runs -/

/-- The heap with the blocks that are out. -/
structure Region where
  heap : Heap
  live : List Span

namespace Region

inductive Call
  | allocate (granted : Bool) (size align : ℕ)
  | release (block : Span)

/-- A call whose memory stays below the last address. Only a block that is out is given back,
with its size. -/
def next : Call → Region → Option Region
  | .allocate granted size align, r =>
    let result := Wasm.allocate granted size align r.heap
    if result.2.top < addresses then some ⟨result.2, taken size result.1 ++ r.live⟩ else none
  | .release block, r =>
    if block ∈ r.live then
      match Wasm.release block.base block.size r.heap with
      | (.ok (), heap) => some ⟨heap, r.live.erase block⟩
      | (.error _, heap) => some { r with heap := heap }
    else none

/-- The memory has some pages before the first call, and they are not the provider's. -/
def machine (first : ℕ) : Machine Region Call := ⟨⟨⟨[], first⟩, []⟩, next⟩

/-- The memory that was grown. -/
def grown (first : ℕ) (r : Region) : Span := ⟨first * page, r.heap.top - first * page⟩

structure Sound (first : ℕ) (r : Region) : Prop where
  gapped : Gapped r.heap.list
  records : r.heap.list.length ≤ maxFree
  pages : first ≤ r.heap.pages
  below : r.heap.top < addresses
  live : ∀ block ∈ r.live, 0 < block.size
  tiles : Tiles (r.heap.list ++ r.live) (r.grown first)

variable {x : ℕ} {r : Region}

variable (h : r.Sound x)
include h

theorem Sound.heap : r.heap.Sound where
  gapped := h.gapped
  records := h.records
  below := h.below
  above byte hbyte := by
    have htiles := h.tiles byte
    have ha : x * page ≤ r.heap.top := Nat.mul_le_mul_right _ h.pages
    rw [load_append, weight, if_neg] at htiles
    · omega
    · simp only [grown, Span.Has, Span.stop]
      omega

/-- A block that is out shares no byte with the list. -/
theorem Sound.clear (hblock : block ∈ r.live) : Clear r.heap.list block := by
  intro byte hbyte
  have htiles := h.tiles byte
  have hpos : 0 < load r.live byte := load_pos hblock hbyte
  have hone : (r.grown x).weight byte ≤ 1 := Span.weight_le_one _ _
  rw [load_append] at htiles
  omega

theorem Sound.allocate {granted : Bool} {size align : ℕ}
    (htop : (Wasm.allocate granted size align r.heap).2.top < addresses) :
    Sound x ⟨(Wasm.allocate granted size align r.heap).2,
      taken size (Wasm.allocate granted size align r.heap).1 ++ r.live⟩ := by
  have hallocated := allocate_spec h.heap granted size align
  generalize Wasm.allocate granted size align r.heap = result at hallocated htop ⊢
  refine ⟨hallocated.gapped, hallocated.records, h.pages.trans hallocated.pages, htop,
    fun block hblock ↦ ?_, fun byte ↦ ?_⟩
  · rcases List.mem_append.mp hblock with htaken | hlive
    · cases hanswer : result.1 with
      | ok start =>
        rw [hanswer, taken, List.mem_singleton] at htaken
        rw [htaken]
        exact (hallocated.aligned start hanswer).1
      | error fault =>
        rw [hanswer] at htaken
        exact absurd htaken List.not_mem_nil
    · exact h.live block hlive
  · -- The part the memory grew by is behind what the blocks tiled before.
    have ha : x * page ≤ r.heap.top := Nat.mul_le_mul_right _ h.pages
    have hgrew : r.heap.top ≤ result.2.top := Nat.mul_le_mul_right _ hallocated.pages
    have hload := hallocated.load_eq byte
    have htiles := h.tiles byte
    have hsum : Span.weight ⟨x * page, result.2.top - x * page⟩ byte =
        Span.weight ⟨x * page, r.heap.top - x * page⟩ byte +
          Span.weight ⟨r.heap.top, result.2.top - r.heap.top⟩ byte := by
      have hsplit : result.2.top - x * page =
          (r.heap.top - x * page) + (result.2.top - r.heap.top) := by omega
      rw [hsplit, weight_add, Nat.add_sub_cancel' ha]
    simp only [grown, load_append] at hload htiles hsum ⊢
    omega

theorem Sound.release (hblock : block ∈ r.live) :
    (∃ error : Error, Wasm.release block.base block.size r.heap = (.error error, r.heap)) ∨
      ∃ list, Wasm.release block.base block.size r.heap = (.ok (), { r.heap with list := list }) ∧
        Sound x ⟨{ r.heap with list := list }, r.live.erase block⟩ := by
  rcases release_spec h.gapped (h.live block hblock) (h.clear hblock) with hrefused | ⟨list, hlist, hadded⟩
  · exact .inl hrefused
  · refine .inr ⟨list, hlist, hadded.gapped, ?_, h.pages, h.below, fun j hj ↦ ?_, fun byte ↦ ?_⟩
    · have hlen := hadded.length_le
      have hrecords := h.records
      simp only
      omega
    · exact h.live j (List.mem_of_mem_erase hj)
    · have hload := hadded.load_eq byte
      have htiles := h.tiles byte
      have hlive : load r.live byte = load (block :: r.live.erase block) byte :=
        load_perm (List.perm_cons_erase hblock)
      simp only [load_append, load_cons] at htiles hlive ⊢
      have hsame : (grown x ⟨{ r.heap with list := list }, r.live.erase block⟩) = r.grown x := rfl
      rw [hsame]
      omega

omit h

theorem sound_of_reachable (ha : x * page < addresses) (h : (machine x).runs.Reachable r) :
    r.Sound x := by
  refine Machine.invariant ?_ ?_ h
  · exact ⟨.nil, Nat.zero_le _, le_rfl, ha, (fun _ hblock ↦ absurd hblock List.not_mem_nil),
      fun byte ↦ by simp [machine, grown, Heap.top, Span.weight_zero]⟩
  · rintro (⟨granted, size, align⟩ | block) r final - hs hnext
    · simp only [machine, next] at hnext
      split at hnext
      · rename_i htop
        obtain rfl := Option.some.inj hnext
        exact hs.allocate htop
      · simp at hnext
    · simp only [machine, next] at hnext
      split at hnext
      · rename_i hblock
        rcases hs.release hblock with ⟨error, hrelease⟩ | ⟨list, hrelease, hfinal⟩
        · rw [hrelease] at hnext
          obtain rfl := Option.some.inj hnext
          exact hs
        · rw [hrelease] at hnext
          obtain rfl := Option.some.inj hnext
          exact hfinal
      · simp at hnext

/-- In every run the list is sorted with a gap between any two blocks, free blocks and blocks that
are out tile the grown memory, and each call from there keeps the assertions of the source, answers
with an aligned block or leaves the list as it was if it fails to give one back. -/
theorem memory_of_reachable (hfirst : x * page < addresses) (h : (machine x).runs.Reachable r) :
    Gapped r.heap.list ∧ r.heap.list.length ≤ maxFree ∧ (∀ block ∈ r.live, 0 < block.size) ∧
      Tiles (r.heap.list ++ r.live) (r.grown x) ∧
      (∀ granted size align, (allocate granted size align r.heap).1 ≠ .error .panic ∧
        ∀ start, (allocate granted size align r.heap).1 = .ok start → align ∣ start) ∧
      ∀ block ∈ r.live, (release block.base block.size r.heap).1 = .ok () ∨
        ∃ error : Error, release block.base block.size r.heap = (.error error, r.heap) := by
  have hsound := sound_of_reachable hfirst h
  refine ⟨hsound.gapped, hsound.records, hsound.live, hsound.tiles,
    fun granted size align ↦ ?_, fun block hblock ↦ ?_⟩
  · have hallocated := allocate_spec hsound.heap granted size align
    exact ⟨hallocated.calm, fun start hstart ↦ (hallocated.aligned start hstart).2⟩
  · rcases hsound.release hblock with hrefused | ⟨list, hrelease, _⟩
    · exact .inr hrefused
    · exact .inl (congrArg Prod.fst hrelease)

/-- A memory with one page before the first call, in which one byte is out. -/
theorem memory_of_reachable_oneByte : ∃ r : Region, (machine 1).runs.Reachable r ∧ r.live ≠ [] ∧
    Tiles (r.heap.list ++ r.live) (r.grown 1) := by
  have hrun : (machine 1).run [.allocate true 1 1] (machine 1).start =
    some ⟨⟨[⟨65537, 65535⟩], 2⟩, [⟨65536, 1⟩]⟩ := rfl
  have hreach := Machine.reachable_of_run hrun
  exact ⟨_, hreach, by simp, (memory_of_reachable (by decide) hreach).2.2.2.1⟩

end Region

end DotnetPal.Wasm
