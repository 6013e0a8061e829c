import VortexGpu.HostQueue

/-!
# Rectangles

Where the bytes of a rectangle are, with sums and products that do not wrap around, against the runs
that a rectangle is cut into. A span that is computed in 64 bits may be small although the last row
is far behind the buffer, and the check of a slice pitch against a product that has wrapped says
nothing.
-/

namespace VortexGpu.Api
open Word Simx Work List Nat

/-- The place of a rectangle in the buffer or on the other side. -/
structure RectSide where
  origin : Dim3
  row : ℕ
  slice : ℕ

namespace RectSide

def off (s : RectSide) (z y : ℕ) : ℕ :=
  (s.origin.z + z) * s.slice + (s.origin.y + y) * s.row + s.origin.x

def span (s : RectSide) (r : Dim3) : ℕ := s.off (r.z - 1) (r.y - 1) + r.x

def ofPitches (r origin : Dim3) (rowPitch slicePitch : ℕ) : RectSide :=
  ⟨origin, orElse rowPitch r.x, orElse slicePitch (orElse rowPitch r.x * r.y)⟩

/-- What is known of a side whose slice pitch was resolved to `pitch`. -/
structure Resolved (s : RectSide) (r : Dim3) (pitch : ℕ) : Prop where
  row : r.x ≤ s.row
  pos : 0 < s.slice
  eq : pitch = s.slice ∨ s.slice = s.row * r.y ∧ 2 ^ 64 ≤ s.slice
  whole : mul64 s.row r.y ≤ pitch

variable {r : Dim3} {s : RectSide} {pitch z y z' y' : ℕ}

theorem off_eq : s.off z y = s.off 0 0 + z * s.slice + y * s.row := by
  unfold off
  ring

theorem off_le (hz : z < r.z) (hy : y < r.y) : s.off z y + r.x ≤ s.span r := by
  have hslices :=
    Nat.mul_le_mul_right s.slice (by omega : s.origin.z + z ≤ s.origin.z + (r.z - 1))
  have hrows := Nat.mul_le_mul_right s.row (by omega : s.origin.y + y ≤ s.origin.y + (r.y - 1))
  unfold span off
  omega

/-- Ranges at the places of two counters, where a step of the outer one is larger than all that the
inner one spans. -/
theorem apart_of_nested {a b c n i j i' j' : ℕ} (hb : c ≤ b) (ha : (n - 1) * b + c ≤ a)
    (hj : j < n) (hj' : j' < n) (hne : i ≠ i' ∨ j ≠ j') :
    i * a + j * b + c ≤ i' * a + j' * b ∨ i' * a + j' * b + c ≤ i * a + j * b := by
  have hstep : ∀ {i i' j j' : ℕ}, j < n → i < i' →
      i * a + j * b + c ≤ i' * a + j' * b := by
    intro i i' j j' hj hi
    have hinner := Nat.mul_le_mul_right b (by omega : j ≤ n - 1)
    have houter := Nat.mul_le_mul_right a (succ_le_of_lt hi)
    rw [succ_mul] at houter
    omega
  have hsame : ∀ {j j' : ℕ}, j < j' → i * a + j * b + c ≤ i * a + j' * b := by
    intro j j' hlt
    have hinner := Nat.mul_le_mul_right b (succ_le_of_lt hlt)
    rw [succ_mul] at hinner
    omega
  rcases lt_trichotomy i i' with hi | rfl | hi
  · exact .inl (hstep hj hi)
  · rcases Nat.lt_or_gt_of_ne (hne.resolve_left (by simp)) with hlt | hlt
    · exact .inl (hsame hlt)
    · exact .inr (hsame hlt)
  · exact .inr (hstep hj' hi)

section Side
variable (h : s.Resolved r pitch) (hx : 0 < r.x)
include h hx

theorem Resolved.rectOff_eq (hend : s.off z y + r.x ≤ 2 ^ 64) :
    rectOff s.origin s.row pitch z y = s.off z y := by
  have hrow := h.row
  have hy : s.origin.y + y ≤ (s.origin.y + y) * s.row := Nat.le_mul_of_pos_right _ (by omega)
  have hz : s.origin.z + z ≤ (s.origin.z + z) * s.slice := Nat.le_mul_of_pos_right _ h.pos
  unfold off at hend ⊢
  have hslice : mul64 (s.origin.z + z) pitch = (s.origin.z + z) * s.slice := by
    rcases Nat.eq_zero_or_pos (s.origin.z + z) with hzero | hpos
    · simp [hzero, mul64]
    · have hle : s.slice ≤ (s.origin.z + z) * s.slice := Nat.le_mul_of_pos_left _ hpos
      rw [h.eq.resolve_right (by omega), mul64, mod_eq_of_lt (by omega)]
  rw [rectOff, add64_of_lt (by omega : s.origin.z + z < 2 ^ 64), hslice,
    add64_of_lt (by omega : s.origin.y + y < 2 ^ 64), mul64, mod_eq_of_lt (by omega),
    add64_of_lt (by omega : (s.origin.z + z) * s.slice + (s.origin.y + y) * s.row < 2 ^ 64),
    add64_of_lt (by omega)]

theorem Resolved.rows_apart (hend : s.span r ≤ 2 ^ 64) (hslices : r.z = 1 ∨ r.x ≤ s.slice)
    (hz : z < r.z) (hz' : z' < r.z) (hy : y < r.y) (hy' : y' < r.y) (hne : z ≠ z' ∨ y ≠ y') :
    s.off z y + r.x ≤ s.off z' y' ∨ s.off z' y' + r.x ≤ s.off z y := by
  have hrow := h.row
  have hlast : s.row * r.y = (r.y - 1) * s.row + s.row := by
    rw [← succ_mul, mul_comm]
    congr 1
    omega
  have hsum : (r.z - 1) * s.slice + (r.y - 1) * s.row + r.x ≤ s.span r := by
    rw [span, off_eq]
    omega
  rw [off_eq, @off_eq s z' y']
  by_cases hone : r.z = 1
  · have hnested := @apart_of_nested _ s.row r.x r.y 0 y 0 y' hrow le_rfl hy hy'
      (.inr (hne.resolve_left (by omega)))
    rw [show z = 0 by omega, show z' = 0 by omega]
    omega
  · have hslice := hslices.resolve_left hone
    have hle : s.slice ≤ (r.z - 1) * s.slice := Nat.le_mul_of_pos_left _ (by omega)
    have hpitch := h.whole
    rw [h.eq.resolve_right (by omega), mul64] at hpitch
    by_cases hwrap : s.row * r.y < 2 ^ 64
    · have hnested :=
        apart_of_nested hrow (by omega : (r.y - 1) * s.row + r.x ≤ s.slice) hy hy' hne
      omega
    -- the check has passed on a product that wrapped: all slices lie between two rows of the first
    -- one
    · have hnested :=
        apart_of_nested hslice (by omega : (r.z - 1) * s.slice + r.x ≤ s.row) hz hz' hne.symm
      omega

end Side

theorem ofPitches_resolved {origin : Dim3} {rowPitch slicePitch : ℕ} (hx : 0 < r.x) (hy : 0 < r.y)
    (hrow : r.x ≤ orElse rowPitch r.x)
    (hwhole : mul64 (orElse rowPitch r.x) r.y ≤
      orElse slicePitch (mul64 (orElse rowPitch r.x) r.y)) :
    (ofPitches r origin rowPitch slicePitch).Resolved r
      (orElse slicePitch (mul64 (orElse rowPitch r.x) r.y)) where
  row := hrow
  pos := by
    simp only [ofPitches, orElse] at hrow ⊢
    split_ifs at hrow ⊢ <;> first | exact mul_pos (by omega) hy | omega
  eq := by
    by_cases hzero : slicePitch = 0
    · simp only [ofPitches, orElse, hzero, if_true, mul64, true_and]
      by_cases hlt : orElse rowPitch r.x * r.y < 2 ^ 64
      · exact .inl (mod_eq_of_lt hlt)
      · exact .inr (Nat.not_lt.mp hlt)
    · simp [ofPitches, orElse, hzero]
  whole := hwhole

theorem slice_of_contiguous (h : s.Resolved r (mul64 r.y r.x)) (hrow : s.row = r.x)
    (hlt : r.y * r.x < 2 ^ 64) : s.slice = r.y * r.x := by
  rcases h.eq with heq | ⟨heq, _⟩
  · rw [← heq, mul64, mod_eq_of_lt hlt]
  · rw [heq, hrow, mul_comm]

end RectSide

open RectSide

namespace RectInfo

def buffer (i : RectInfo) : RectSide :=
  .ofPitches i.region i.bufferOrigin i.bufferRowPitch i.bufferSlicePitch

def host (i : RectInfo) : RectSide :=
  .ofPitches i.region i.hostOrigin i.hostRowPitch i.hostSlicePitch

end RectInfo

theorem resolveRect_spec {info : RectInfo} {rr : ResolvedRect} (h : resolveRect info = some rr) :
    0 < info.region.x ∧ 0 < info.region.y ∧ 0 < info.region.z ∧ rr.region = info.region ∧
      rr.bufferOrigin = info.buffer.origin ∧ rr.bufferRow = info.buffer.row ∧
      info.buffer.Resolved info.region rr.bufferSlice ∧ rr.hostOrigin = info.host.origin ∧
      rr.hostRow = info.host.row ∧ info.host.Resolved info.region rr.hostSlice := by
  unfold resolveRect at h
  dsimp only at h
  split_ifs at h with hregion hrow hslice
  obtain ⟨hx, hy, hz⟩ : 0 < info.region.x ∧ 0 < info.region.y ∧
      0 < info.region.z := by omega
  obtain ⟨hbr, hhr⟩ := not_or.mp hrow
  obtain ⟨hbs, hhs⟩ := not_or.mp hslice
  cases Option.some.inj h
  exact ⟨hx, hy, hz, rfl, rfl, rfl,
    ofPitches_resolved hx hy (Nat.not_lt.mp hbr) (Nat.not_lt.mp hbs), rfl, rfl,
    ofPitches_resolved hx hy (Nat.not_lt.mp hhr) (Nat.not_lt.mp hhs)⟩

/-- The runs of a rectangle lie inside the buffer and below `limit` on the other side, those that
are written do not meet, and they take each byte of one side to the same byte of the other. -/
structure RectExact (r : Dim3) (s t : RectSide) (runs : List (ℕ × ℕ × ℕ)) (size limit : ℕ)
    (toBuffer : Bool) : Prop where
  inside : ∀ p ∈ runs, p.1 + p.2.2 ≤ size ∧ p.2.1 + p.2.2 ≤ limit
  apart : runs.Pairwise fun p q => if toBuffer then p.1 + p.2.2 ≤ q.1 ∨ q.1 + q.2.2 ≤ p.1
    else p.2.1 + p.2.2 ≤ q.2.1 ∨ q.2.1 + q.2.2 ≤ p.2.1
  bytes : ∀ b c, (∃ p ∈ runs, ∃ i < p.2.2, b = p.1 + i ∧ c = p.2.1 + i) ↔
    ∃ z < r.z, ∃ y < r.y, ∃ x < r.x, b = s.off z y + x ∧ c = t.off z y + x

def rowRuns (r : Dim3) (s t : RectSide) : List (ℕ × ℕ × ℕ) :=
  (range r.z).flatMap fun z => (range r.y).map fun y => (s.off z y, t.off z y, r.x)

structure RectSide.Contiguous (s : RectSide) (r : Dim3) : Prop where
  row : s.row = r.x
  slice : s.slice = r.y * r.x

namespace RectSide.Contiguous
variable {r : Dim3} {s : RectSide}

theorem off (h : s.Contiguous r) (z y x : ℕ) :
    s.off z y + x = s.off 0 0 + (z * (r.y * r.x) + y * r.x + x) := by
  rw [off_eq, h.row, h.slice]
  omega

theorem span (h : s.Contiguous r) (hy : 0 < r.y) (hz : 0 < r.z) :
    s.span r = s.off 0 0 + r.z * (r.y * r.x) := by
  obtain ⟨m, hm⟩ := exists_eq_succ_of_ne_zero hy.ne'
  obtain ⟨n, hn⟩ := exists_eq_succ_of_ne_zero hz.ne'
  rw [RectSide.span, h.off, hm, hn]
  simp only [succ_eq_add_one, Nat.add_sub_cancel]
  ring

end RectSide.Contiguous

theorem rectRows_cases {info : RectInfo} {rr : ResolvedRect} (h : resolveRect info = some rr)
    (hb : info.buffer.span info.region < 2 ^ 64) (hc : info.host.span info.region ≤ 2 ^ 64) :
    (info.buffer.Contiguous info.region ∧ info.host.Contiguous info.region ∧ rectRows rr =
      [(info.buffer.off 0 0, info.host.off 0 0,
        info.region.z * (info.region.y * info.region.x))]) ∨
    rectRows rr = rowRuns info.region info.buffer info.host := by
  obtain ⟨hx, hy, hz, hregion, hbo, hbr, hbuffer, hho, hhr, hhost⟩ := resolveRect_spec h
  generalize info.region = r at *
  generalize info.buffer = s at *
  generalize info.host = t at *
  have hoffs : ∀ z < r.z, ∀ y < r.y, rectOff rr.bufferOrigin rr.bufferRow rr.bufferSlice z y =
      s.off z y ∧ rectOff rr.hostOrigin rr.hostRow rr.hostSlice z y = t.off z y := by
    intro z hz y hy
    rw [hbo, hbr, hho, hhr]
    exact ⟨hbuffer.rectOff_eq hx ((off_le hz hy).trans hb.le),
      hhost.rectOff_eq hx ((off_le hz hy).trans hc)⟩
  unfold rectRows
  rw [hregion]
  split_ifs with hcontig
  · obtain ⟨hrow, hrow', hslice, hslice'⟩ := hcontig
    rw [hslice] at hbuffer
    rw [hslice'] at hhost
    rw [hbr] at hrow
    rw [hhr] at hrow'
    have hlt : r.y * r.x < 2 ^ 64 := by
      have hlast := off_le (s := s) hz (Nat.sub_one_lt hy.ne')
      have hrows : r.y * r.x = (r.y - 1) * r.x + r.x := by
        rw [← succ_mul]
        congr 1
        omega
      rw [off_eq, hrow] at hlast
      omega
    have hs : s.Contiguous r := ⟨hrow, slice_of_contiguous hbuffer hrow hlt⟩
    have hspan := hs.span hy hz
    obtain ⟨hob, hoh⟩ := hoffs 0 hz 0 hy
    refine .inl ⟨hs, ⟨hrow', slice_of_contiguous hhost hrow' hlt⟩, ?_⟩
    rw [hob, hoh, mul64, mul64, mul_comm r.x, mod_eq_of_lt hlt, mul_comm _ r.z,
      mod_eq_of_lt (by omega)]
  · refine .inr (flatMap_congr fun z hz => map_congr_left fun y hy => ?_)
    obtain ⟨hob, hoh⟩ := hoffs z (mem_range.mp hz) y (mem_range.mp hy)
    rw [hob, hoh]

theorem index_iff {X Y Z i : ℕ} : i < Z * (Y * X) ↔ ∃ z < Z, ∃ y < Y, ∃ x < X,
    i = z * (Y * X) + y * X + x := by
  constructor
  · intro hi
    have hpos : 0 < Y * X := pos_of_ne_zero fun h => by simp [h] at hi
    have hx : 0 < X := Nat.pos_of_mul_pos_left hpos
    have hplane := div_add_mod' i (Y * X)
    have hline := div_add_mod' (i % (Y * X)) X
    have hrest := mod_lt i hpos
    refine ⟨i / (Y * X), (Nat.div_lt_iff_lt_mul hpos).mpr hi, i % (Y * X) / X,
      (Nat.div_lt_iff_lt_mul hx).mpr hrest, i % (Y * X) % X, mod_lt _ hx, by omega⟩
  · rintro ⟨z, hz, y, hy, x, hx, rfl⟩
    have hplane := Nat.mul_le_mul_right (Y * X) (succ_le_of_lt hz)
    have hline := Nat.mul_le_mul_right X (succ_le_of_lt hy)
    rw [succ_mul] at hplane hline
    omega

section Exact
variable {r : Dim3} {s t : RectSide} {size limit : ℕ} {toBuffer : Bool}

theorem RectExact.of_contiguous (hs : s.Contiguous r) (ht : t.Contiguous r) (hy : 0 < r.y)
    (hz : 0 < r.z) (hb : s.span r ≤ size) (hc : t.span r ≤ limit) :
    RectExact r s t [(s.off 0 0, t.off 0 0, r.z * (r.y * r.x))] size limit toBuffer := by
  rw [hs.span hy hz] at hb
  rw [ht.span hy hz] at hc
  refine ⟨by simpa using ⟨hb, hc⟩, pairwise_singleton .., fun b c => ?_⟩
  simp only [mem_singleton, exists_eq_left, index_iff]
  constructor
  · rintro ⟨_, ⟨z, hz, y, hy, x, hx, rfl⟩, rfl, rfl⟩
    exact ⟨z, hz, y, hy, x, hx, (hs.off z y x).symm, (ht.off z y x).symm⟩
  · rintro ⟨z, hz, y, hy, x, hx, rfl, rfl⟩
    exact ⟨_, ⟨z, hz, y, hy, x, hx, rfl⟩, hs.off z y x, ht.off z y x⟩

theorem RectExact.of_rows (hb : s.span r ≤ size) (hc : t.span r ≤ limit)
    (hapart : ∀ {z z' y y' : ℕ}, z < r.z → z' < r.z → y < r.y → y' < r.y → z ≠ z' ∨
      y ≠ y' → let u := if toBuffer then s else t
      u.off z y + r.x ≤ u.off z' y' ∨ u.off z' y' + r.x ≤ u.off z y) :
    RectExact r s t (rowRuns r s t) size limit toBuffer := by
  refine ⟨?_, ?_, fun b c => ?_⟩
  · simp only [rowRuns, mem_flatMap, mem_map, mem_range]
    rintro _ ⟨z, hz, y, hy, rfl⟩
    exact ⟨(off_le hz hy).trans hb, (off_le hz hy).trans hc⟩
  · rw [rowRuns, pairwise_flatMap]
    simp only [pairwise_map, mem_range, mem_map]
    refine ⟨fun z hz => pairwise_lt_range.imp_of_mem ?_, pairwise_lt_range.imp_of_mem ?_⟩
    · intro y y' hy hy' hlt
      have := hapart hz hz (mem_range.mp hy) (mem_range.mp hy') (.inr hlt.ne)
      cases toBuffer <;> exact this
    · rintro z z' hz hz' hlt _ ⟨y, hy, rfl⟩ _ ⟨y', hy', rfl⟩
      have := hapart (mem_range.mp hz) (mem_range.mp hz') hy hy' (.inl hlt.ne)
      cases toBuffer <;> exact this
  · simp only [rowRuns, mem_flatMap, mem_map, mem_range]
    constructor
    · rintro ⟨_, ⟨z, hz, y, hy, rfl⟩, x, hx, rfl, rfl⟩
      exact ⟨z, hz, y, hy, x, hx, rfl, rfl⟩
    · rintro ⟨z, hz, y, hy, x, hx, rfl, rfl⟩
      exact ⟨_, ⟨z, hz, y, hy, rfl⟩, x, hx, rfl, rfl⟩

/-- The first rows of the first two slices do not meet. -/
theorem RectExact.slice_le (h : RectExact r s t (rowRuns r s t) size limit toBuffer) (hy : 0 < r.y)
    (hz : 1 < r.z) : r.x ≤ (if toBuffer then s else t).slice := by
  have hfirst := pairwise_iff_getElem.mp (pairwise_flatMap.mp h.apart).2 0 1 (by simp; omega)
    (by simpa using hz) Nat.zero_lt_one
  have hmem : ∀ z, (s.off z 0, t.off z 0, r.x) ∈ (range r.y).map fun y =>
      (s.off z y, t.off z y, r.x) :=
    fun z => mem_map.mpr ⟨0, mem_range.mpr hy, rfl⟩
  simp only [getElem_range] at hfirst
  have hapart := hfirst _ (hmem 0) _ (hmem 1)
  rw [off_eq (z := 1), off_eq (s := t) (z := 1)] at hapart
  cases toBuffer <;> simp at hapart ⊢ <;> omega

theorem RectExact.spans {runs : List (ℕ × ℕ × ℕ)}
    (h : RectExact r s t runs size limit toBuffer)
    (hx : 0 < r.x) (hy : 0 < r.y) (hz : 0 < r.z) : s.span r ≤ size ∧ t.span r ≤ limit := by
  obtain ⟨p, hp, i, hi, hb, hc⟩ := (h.bytes _ _).mpr
    ⟨r.z - 1, by omega, r.y - 1, by omega, r.x - 1, by omega, rfl, rfl⟩
  have hinside := h.inside p hp
  unfold RectSide.span
  omega

end Exact

/-- A rectangle is moved exactly if its spans, without wrap-around, are within the buffer and the
other side, and the slices that are written do not meet. The sides are the buffer of the call and
host memory, or two buffers. -/
theorem rect_exact_iff {info : RectInfo} {rr : ResolvedRect} (h : resolveRect info = some rr)
    {size limit : ℕ} (hsize : size < 2 ^ 64) (hlimit : limit ≤ 2 ^ 64) (toBuffer : Bool) :
    RectExact info.region info.buffer info.host (rectRows rr) size limit toBuffer ↔
      info.buffer.span info.region ≤ size ∧ info.host.span info.region ≤ limit ∧
        (info.region.z = 1 ∨ info.region.x ≤ (if toBuffer then info.buffer
          else info.host).slice) := by
  obtain ⟨hx, hy, hz, -, -, -, hbuffer, -, -, hhost⟩ := resolveRect_spec h
  constructor
  · intro he
    obtain ⟨hb, hc⟩ := he.spans hx hy hz
    refine ⟨hb, hc, ?_⟩
    rcases rectRows_cases h (by omega) (by omega) with ⟨hs, ht, -⟩ | hrows
    · have hle := Nat.le_mul_of_pos_left info.region.x hy
      right
      cases toBuffer with
      | true => exact hle.trans_eq hs.slice.symm
      | false => exact hle.trans_eq ht.slice.symm
    · rw [hrows] at he
      exact or_iff_not_imp_left.mpr fun hone => he.slice_le hy (by omega)
  · rintro ⟨hb, hc, hslices⟩
    rcases rectRows_cases h (by omega) (by omega) with ⟨hs, ht, hrows⟩ | hrows
    · rw [hrows]
      exact .of_contiguous hs ht hy hz hb hc
    · rw [hrows]
      refine .of_rows hb hc fun hz hz' hy hy' hne => ?_
      cases toBuffer with
      | true => exact hbuffer.rows_apart hx (by omega) hslices hz hz' hy hy' hne
      | false => exact hhost.rows_apart hx (by omega) hslices hz hz' hy hy' hne

def pitchedRect (bufferOrigin region : Dim3) (bufferRowPitch : ℕ) : RectInfo :=
  ⟨120, bufferOrigin, ⟨0, 0, 0⟩, region, bufferRowPitch, 0, 0, 0⟩

theorem rect_exact_pitched :
    ∃ rr, resolveRect (pitchedRect ⟨2, 1, 0⟩ ⟨4, 3, 2⟩ 8) = some rr ∧
      rr.bufferSpan ≤ 64 ∧
      RectExact ⟨4, 3, 2⟩ ⟨⟨2, 1, 0⟩, 8, 24⟩ ⟨⟨0, 0, 0⟩, 4, 12⟩
        (rectRows rr) 64 (2 ^ 64) true :=
  ⟨_, rfl, by decide,
    (@rect_exact_iff (pitchedRect ⟨2, 1, 0⟩ ⟨4, 3, 2⟩ 8) _ rfl 64 _ (by decide) le_rfl
      true).mpr ⟨by decide, by decide, by decide⟩⟩

/-- Two rows that are `2 ^ 63` bytes apart, from the second row of the buffer on: the span is one
byte, and the first row starts at `2 ^ 63`. -/
theorem rect_row_behind_buffer :
    ∃ rr, resolveRect (pitchedRect ⟨0, 1, 0⟩ ⟨1, 2, 1⟩ (2 ^ 63)) = some rr ∧
    rr.bufferSpan ≤ 64 ∧ (2 ^ 63, 0, 1) ∈ rectRows rr :=
  ⟨_, rfl, by decide, by decide⟩

end VortexGpu.Api
