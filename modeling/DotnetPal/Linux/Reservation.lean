import DotnetPal.Foundations.Alignments
import DotnetPal.Foundations.Spans
import DotnetPal.Port

/-!
# Aligned reservations

The boundary rounds a request to whole pages and checks it. The provider maps enough to find an
aligned range of that size in it and unmaps what lies in front of the range and behind it. Addresses
and sizes have 64 bits, and a sum or a difference that the source takes for granted has no result
where it leaves them.
-/

namespace DotnetPal.Linux.Reservation

def usizeMax : ℕ := 2 ^ 64 - 1

def isizeMax : ℕ := 2 ^ 63 - 1

def checkedAdd (first second : ℕ) : Option ℕ :=
  if first + second ≤ usizeMax then some (first + second) else none

/-- A difference the source does not check. -/
def difference (first second : ℕ) : Option ℕ := if second ≤ first then some (first - second) else none

/-! ## The boundary's part -/

def roundSize (size page : ℕ) : Option ℕ :=
  if size = 0 ∨ ¬page.isPowerOfTwo then none
  else (checkedAdd size (page - 1)).bind fun moved ↦
    let rounded := moved &&& (usizeMax - (page - 1))
    if rounded ≤ isizeMax then some rounded else none

def geometry (size align page : ℕ) : Option (ℕ × ℕ) :=
  (roundSize size page).bind fun size ↦
    if align ≠ 0 ∧ ¬align.isPowerOfTwo then none
    else
      let align := max align page
      (checkedAdd size (align - page)).bind fun total ↦ if isizeMax < total then none else some (size, align)

/-! ## The provider's part -/

/-- What the kernel answers: where a mapping of a size is, and whether each `munmap` succeeds. -/
structure Kernel where
  mmap : ℕ → Option ℕ
  front : Bool
  back : Bool
  cleanUp : Bool

/-- The bytes that are left of the mapping. -/
abbrev Mapped : Type := ℕ → Bool

def mapped (base size : ℕ) : Mapped := fun byte ↦ decide (Span.Has ⟨base, size⟩ byte)

/-- A `munmap` that fails has no effect. -/
def munmap (succeeds : Bool) (base size : ℕ) (left : Mapped) : Mapped :=
  if succeeds then fun byte ↦ left byte && !mapped base size byte else left

/-- The unmapping of what lies behind the range. -/
def cutBack (kernel : Kernel) (aligned size suffix : ℕ) (left : Mapped) : Option (Except Error ℕ × Mapped) :=
  if suffix = 0 then some (.ok aligned, left)
  else (checkedAdd aligned size).bind fun stop ↦
    if kernel.back then some (.ok aligned, munmap true stop suffix left)
    else (checkedAdd size suffix).map fun rest ↦ (.error .os, munmap kernel.cleanUp aligned rest left)

/-- The range in a mapping of `total` bytes. -/
def trim (kernel : Kernel) (size align total raw : ℕ) : Option (Except Error ℕ × Mapped) :=
  match checkedAdd raw (align - 1) with
  | none => some (.error .os, munmap kernel.cleanUp raw total (mapped raw total))
  | some rounded =>
    let aligned := rounded &&& (usizeMax - (align - 1))
    (difference aligned raw).bind fun front ↦ (difference total front).bind fun rest ↦
      (difference rest size).bind fun suffix ↦
        if front = 0 then cutBack kernel aligned size suffix (mapped raw total)
        else if kernel.front then
          cutBack kernel aligned size suffix (munmap true raw front (mapped raw total))
        else some (.error .os, munmap kernel.cleanUp raw total (mapped raw total))

def reserve (kernel : Kernel) (page size align : ℕ) : Option (Except Error ℕ × Mapped) :=
  (difference align page).bind fun extra ↦
    match checkedAdd size extra with
    | none => some (.error .os, fun _ ↦ false)
    | some total =>
      match kernel.mmap total with
      | none => some (.error .os, fun _ ↦ false)
      | some raw => trim kernel size align total raw

/-- `vm::reserve`. -/
def vmReserve (kernel : Kernel) (page size align : ℕ) (flags : UInt32) : Option (Except Error ℕ × Mapped) :=
  if flags ≠ 0 then some (.error .unsupported, fun _ ↦ false)
  else match geometry size align page with
    | none => some (.error .invalidArgument, fun _ ↦ false)
    | some (size, align) =>
      (reserve kernel page size align).map fun (result, left) ↦ match result with
        | .error error => (.error error, left)
        -- A provider that breaks its contract is not believed.
        | .ok addr =>
          if addr = 0 ∨ addr % align ≠ 0 ∨ checkedAdd addr size = none then (.error .os, left)
          else (.ok addr, left)

/-! ## The shape of a request -/

variable {kernel : Kernel} {page size al total raw : ℕ}

/-- The size in whole pages. -/
def pages (size page : ℕ) : ℕ := (size + (page - 1)) / page * page

theorem and_mask_eq {moved : ℕ} (halign : al.isPowerOfTwo) (h : moved ≤ usizeMax) :
    moved &&& (usizeMax - (al - 1)) = moved / al * al := by
  obtain ⟨exponent, rfl⟩ := halign
  exact Alignments.and_mask_eq (Nat.lt_succ_of_le h)

theorem checkedAdd_eq {a b : ℕ} (h : a + b ≤ usizeMax) : checkedAdd a b = some (a + b) :=
  if_pos h

/-- A power of two is at most half of the addresses. -/
theorem le_half (h : page.isPowerOfTwo) (hbound : page ≤ usizeMax) : page ≤ 2 ^ 63 := by
  obtain ⟨exponent, rfl⟩ := h
  refine Nat.pow_le_pow_right (by decide) (Nat.le_of_lt_succ ?_)
  exact (Nat.pow_lt_pow_iff_right (by decide)).mp (Nat.lt_succ_of_le hbound)

theorem roundSize_eq (hpage : page.isPowerOfTwo) (hbound : page ≤ usizeMax) (size : ℕ) :
    roundSize size page = if size = 0 ∨ isizeMax <
      pages size page then none else some (pages size page) := by
  have hpos : 0 < page := Nat.pos_of_isPowerOfTwo hpage
  have hle : size ≤ pages size page := (Alignments.isLeast_roundUp hpos).1.2
  by_cases hzero : size = 0
  · simp [roundSize, hzero]
  by_cases hfits : size + (page - 1) ≤ usizeMax
  · simp only [roundSize, hzero, hpage, not_true, or_self, if_false, checkedAdd_eq hfits, Option.bind_some,
      and_mask_eq hpage hfits, false_or]
    unfold pages
    split_ifs <;> first | rfl | omega
  · have hhalf := le_half hpage hbound
    rw [if_pos (.inr (by unfold isizeMax usizeMax at *; omega)), roundSize,
      if_neg (by simp [hzero, hpage]), checkedAdd,
      if_neg hfits]
    rfl

/-- What is refused, and the shape of what is not. -/
theorem geometry_eq (hpage : page.isPowerOfTwo) (hbound : page ≤ usizeMax) (size : ℕ)
    (halign : al ≤ usizeMax) :
    geometry size al page =
      if size = 0 ∨ (al ≠ 0 ∧ ¬al.isPowerOfTwo) ∨ isizeMax < pages size page ∨
          isizeMax < pages size page + (max al page - page)
      then none else some (pages size page, max al page) := by
  rw [geometry, roundSize_eq hpage hbound]
  by_cases hsize : size = 0 ∨ isizeMax < pages size page
  · rw [if_pos hsize, if_pos (by tauto)]
    rfl
  rw [if_neg hsize, Option.bind_some]
  by_cases hpower : al ≠ 0 ∧ ¬al.isPowerOfTwo
  · rw [if_pos hpower, if_pos (.inr (.inl hpower))]
  have hfits : pages size page + (max al page - page) ≤ usizeMax := by
    have hhalf : al ≤ 2 ^ 63 := by
      by_cases hzero : al = 0
      · omega
      · exact le_half (by tauto) halign
    have hpage := le_half hpage hbound
    unfold usizeMax isizeMax at *
    omega
  rw [if_neg hpower]
  dsimp only
  rw [checkedAdd_eq hfits, Option.bind_some]
  have hiff : (size = 0 ∨ (al ≠ 0 ∧ ¬al.isPowerOfTwo) ∨ isizeMax < pages size page ∨
      isizeMax < pages size page + (max al page - page)) ↔
      isizeMax < pages size page + (max al page - page) := by
    tauto
  simp only [hiff]

/-! ## What stays mapped -/

/-- What was answered is aligned and is all that stays of what was mapped; after a failure the
clean-up leaves nothing. -/
inductive Exact (kernel : Kernel) (size align : ℕ) (before : Mapped) : Except Error ℕ × Mapped → Prop
  | granted {start : ℕ} {left : Mapped} : align ∣ start →
      (∀ byte, left byte ↔ start ≤ byte ∧ byte < start + size) →
      (∀ byte, left byte → before byte) → Exact kernel size align before (.ok start, left)
  | refused {error : Error} {left : Mapped} : (kernel.cleanUp → ∀ byte, left byte = false) →
      Exact kernel size align before (.error error, left)

variable {before left : Mapped}

theorem mapped_iff {base byte : ℕ} : mapped base size byte ↔ base ≤ byte ∧ byte < base + size :=
  decide_eq_true_iff

theorem munmap_iff {base byte : ℕ} :
    munmap true base size left byte ↔ left byte ∧ ¬(base ≤ byte ∧ byte < base + size) := by
  rw [← mapped_iff]
  simp [munmap]

/-- The whole mapping, or the part of it that is left, is cleaned up. -/
theorem munmap_all {base : ℕ} (h : ∀ byte, left byte → base ≤ byte ∧ byte < base + size) (byte : ℕ) :
    munmap true base size left byte = false := by
  rw [Bool.eq_false_iff]
  intro hleft
  exact (munmap_iff.mp hleft).2 (h byte (munmap_iff.mp hleft).1)

theorem cutBack_exact {aligned suffix : ℕ} (hdvd : al ∣ aligned)
    (hend : aligned + size + suffix ≤ usizeMax + 1) (hbound : size + suffix ≤ usizeMax)
    (hleft : ∀ byte, left byte ↔ aligned ≤ byte ∧ byte < aligned + (size + suffix))
    (hstayed : ∀ byte, left byte → before byte) :
    ∃ answer, cutBack kernel aligned size suffix left = some answer ∧
      Exact kernel size al before answer := by
  unfold cutBack
  by_cases hsuffix : suffix = 0
  · exact ⟨_, if_pos hsuffix, .granted hdvd (by simpa [hsuffix] using hleft) hstayed⟩
  rw [if_neg hsuffix, checkedAdd_eq (by omega), checkedAdd_eq hbound, Option.bind_some, Option.map_some]
  cases hback : kernel.back with
  | true =>
    refine ⟨_, if_pos rfl, .granted hdvd (fun byte ↦ ?_) fun byte h ↦ hstayed byte (munmap_iff.mp h).1⟩
    rw [munmap_iff, hleft]
    omega
  | false =>
    refine ⟨_, if_neg Bool.false_ne_true, .refused fun hclean byte ↦ ?_⟩
    rw [hclean]
    exact munmap_all (fun byte ↦ (hleft byte).mp) byte

theorem trim_exact (hpower : al.isPowerOfTwo) (hpage : page ∣ al)
    (hraw : page ∣ raw) (htotal : total = size + (al - page)) (hfits : total ≤ usizeMax)
    (hend : raw + total ≤ usizeMax + 1) :
    ∃ answer, trim kernel size al total raw = some answer ∧ Exact kernel size al (mapped raw total)
      answer := by
  have hpos : 0 < al := Nat.pos_of_isPowerOfTwo hpower
  have hle : page ≤ al := Nat.le_of_dvd hpos hpage
  have hclean : kernel.cleanUp → ∀ byte, munmap kernel.cleanUp raw total (mapped raw total) byte =
    false := by
    intro hclean
    rw [hclean]
    exact munmap_all fun byte ↦ mapped_iff.mp
  unfold trim
  by_cases hadd : raw + (al - 1) ≤ usizeMax
  · rw [checkedAdd_eq hadd]
    simp only [and_mask_eq hpower hadd]
    set aligned := (raw + (al - 1)) / al * al
    obtain ⟨⟨hdvd, hmin⟩, _⟩ : IsLeast _ aligned := Alignments.isLeast_roundUp hpos
    have hmax : aligned < raw + al := Alignments.roundUp_lt hpos
    -- Both ends are on pages, so the part in front ends a page before the next multiple.
    have hfront : page ≤ raw + al - aligned :=
      Nat.le_of_dvd (by omega) (Nat.dvd_sub (Nat.dvd_add hraw hpage) (hpage.trans hdvd))
    rw [difference, if_pos hmin, Option.bind_some, difference, if_pos (by omega), Option.bind_some,
      difference, if_pos (by omega), Option.bind_some]
    have hcut : ∀ {left : Mapped},
        (∀ byte, left byte ↔ aligned ≤ byte ∧ byte < aligned + (size + (total - (aligned - raw) - size))) →
        (∀ byte, left byte → mapped raw total byte) →
        ∃ answer, cutBack kernel aligned size (total - (aligned - raw) - size) left = some answer ∧
          Exact kernel size al (mapped raw total) answer :=
      cutBack_exact hdvd (by omega) (by omega)
    by_cases hzero : aligned - raw = 0
    · rw [if_pos hzero]
      refine hcut (fun byte ↦ mapped_iff.trans ?_) fun _ ↦ id
      omega
    rw [if_neg hzero]
    cases hmunmap : kernel.front with
    | true =>
      rw [if_pos rfl]
      refine hcut (fun byte ↦ munmap_iff.trans ?_) fun _ h ↦ (munmap_iff.mp h).1
      rw [mapped_iff]
      omega
    | false => exact ⟨_, if_neg Bool.false_ne_true, .refused hclean⟩
  · rw [checkedAdd, if_neg hadd]
    exact ⟨_, rfl, .refused hclean⟩

/-- An answer of `mmap` to a request for the size: a range on pages that does not wrap. -/
def Kernel.Honest (kernel : Kernel) (page : ℕ) : Prop :=
  ∀ total raw, kernel.mmap total = some raw → page ∣ raw ∧ raw + total ≤ usizeMax + 1

/-- What `mmap` mapped for a request. -/
def Kernel.given (kernel : Kernel) (total : ℕ) : Mapped :=
  match kernel.mmap total with
  | none => fun _ ↦ false
  | some raw => mapped raw total

theorem reserve_exact (hhonest : kernel.Honest page) (hpower : al.isPowerOfTwo) (hpage : page ∣ al)
    (hfits : size + (al - page) ≤ usizeMax) :
    ∃ answer, reserve kernel page size al = some answer ∧
      Exact kernel size al (kernel.given (size + (al - page))) answer := by
  rw [reserve, difference, if_pos (Nat.le_of_dvd (Nat.pos_of_isPowerOfTwo hpower) hpage), Option.bind_some,
    checkedAdd_eq hfits]
  unfold Kernel.given
  cases hmmap : kernel.mmap (size + (al - page)) with
  | none => exact ⟨(.error .os, fun _ ↦ false), by simp only [hmmap], .refused fun _ _ ↦ rfl⟩
  | some raw =>
    obtain ⟨hraw, hend⟩ := hhonest _ _ hmmap
    simpa only [hmmap] using trim_exact hpower hpage hraw rfl hfits hend

theorem max_power (hpage : page.isPowerOfTwo) (h : ¬(al ≠ 0 ∧ ¬al.isPowerOfTwo)) :
    (max al page).isPowerOfTwo ∧ page ∣ max al page := by
  rcases Nat.le_total al page with hle | hge
  · rw [Nat.max_eq_right hle]
    exact ⟨hpage, dvd_rfl⟩
  · have hne : al ≠ 0 := (Nat.pos_of_isPowerOfTwo hpage |>.trans_le hge).ne'
    have hpower : al.isPowerOfTwo := by tauto
    rw [Nat.max_eq_left hge]
    refine ⟨hpower, ?_⟩
    obtain ⟨exponent, rfl⟩ := hpower
    obtain ⟨low, rfl⟩ := hpage
    exact Nat.pow_dvd_pow 2 ((Nat.pow_le_pow_iff_right (by decide)).mp hge)

/-- The boundary refuses exactly the requests that have no shape and passes on the least multiple of
the page; no sum or difference of the provider leaves the addresses, exactly the range it answers
stays mapped, and after a failure whose clean-up succeeds nothing does. The boundary believes every
answer that is not at address 0 and does not end with the last address. -/
theorem geometry_reserve_exact (hpage : page.isPowerOfTwo) (hbound : page ≤ usizeMax)
    (halign : al ≤ usizeMax) :
    ∃ rounded, IsLeast {multiple | page ∣ multiple ∧ size ≤ multiple} rounded ∧
      (geometry size al page = none ↔ size = 0 ∨ (al ≠ 0 ∧ ¬al.isPowerOfTwo) ∨
        isizeMax < rounded ∨ isizeMax < rounded + (max al page - page)) ∧
      ∀ shape, geometry size al page = some shape → shape = (rounded, max al page) ∧
        ∀ kernel :
          Kernel, kernel.Honest page → ∃ answer, reserve kernel page shape.1 shape.2 = some answer ∧
            Exact kernel shape.1 shape.2 (kernel.given (shape.1 + (shape.2 - page))) answer ∧
            ((∀ total raw, kernel.mmap total = some raw → 0 < raw ∧ raw + total ≤ usizeMax) →
              vmReserve kernel page size al 0 = some answer) := by
  have hpos : 0 < page := Nat.pos_of_isPowerOfTwo hpage
  have hleast : IsLeast _ (pages size page) := Alignments.isLeast_roundUp hpos
  have hgeometry := geometry_eq hpage hbound size halign
  refine ⟨pages size page, hleast, ?_, fun shape hshape ↦ ?_⟩
  · rw [hgeometry]
    split_ifs with hrefused <;> simp [hrefused]
  rw [hgeometry, Option.ite_none_left_eq_some] at hshape
  obtain ⟨hfree, ⟨⟩⟩ := hshape
  simp only [not_or] at hfree
  obtain ⟨hsome, hshaped, _, hfits⟩ := hfree
  obtain ⟨hpower, hdvd⟩ := max_power hpage hshaped
  refine ⟨rfl, fun kernel hhonest ↦ ?_⟩
  have htotal : pages size page + (max al page - page) ≤ usizeMax := by
    unfold isizeMax usizeMax at *
    omega
  obtain ⟨_, hreserve, hexact⟩ := reserve_exact hhonest hpower hdvd htotal
  refine ⟨_, hreserve, hexact, fun hinside ↦ ?_⟩
  rw [vmReserve, if_neg (by simp), hgeometry, if_neg (by tauto)]
  simp only [hreserve, Option.map_some]
  cases hexact with
  | refused => rfl
  | @granted start _ haligned hleft hstayed =>
    have hlength : 0 < pages size page := (Nat.pos_of_ne_zero hsome).trans_le hleast.1.2
    -- The first and the last byte of the range are bytes that were mapped.
    have hfirst := hstayed start ((hleft start).mpr (by omega))
    have hlast := hstayed (start + pages size page - 1) ((hleft _).mpr (by omega))
    unfold Kernel.given at hfirst hlast
    cases hmmap : kernel.mmap (pages size page + (max al page - page)) with
    | none => simp [hmmap] at hfirst
    | some raw =>
      simp only [hmmap, mapped_iff] at hfirst hlast
      obtain ⟨hraw, hend⟩ := hinside _ _ hmmap
      dsimp only
      rw [if_neg]
      rintro (hzero | hmod | hwraps)
      · omega
      · exact hmod (Nat.mod_eq_zero_of_dvd haligned)
      · rw [checkedAdd_eq (by omega)] at hwraps
        cases hwraps

/-- A mapping that begins 4 KiB before a multiple of 64 KiB. -/
def early : Kernel := ⟨fun total ↦ if total = 69632 then some 61440 else none, true, true, true⟩

theorem geometry_reserve_exact_early : ∃ left, reserve early 4096 8192 65536 = some (.ok 65536, left) ∧
    Exact early 8192 65536 (early.given 69632) (.ok 65536, left) := by
  obtain ⟨_, _, _, hshape⟩ := @geometry_reserve_exact 4096 5000 65536 ⟨12, rfl⟩ (by decide) (by decide)
  obtain ⟨_, hreserve⟩ := hshape (8192, 65536) (by decide)
  obtain ⟨answer, hanswer, hexact, _⟩ := hreserve early fun total raw hraw ↦ by
    obtain ⟨rfl, ⟨⟩⟩ := Option.ite_none_right_eq_some.mp hraw
    decide
  exact ⟨_, rfl, Option.some.inj hanswer ▸ hexact⟩

end DotnetPal.Linux.Reservation
