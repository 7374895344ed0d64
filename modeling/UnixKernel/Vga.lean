import Mathlib.Data.List.Chain
import Mathlib.Data.List.Range
import UnixKernel.Effects
import UnixKernel.LineWalk
import UnixKernel.PhysAlloc

/-! `draw_line` and `set_pixel` of `device/vga.rs`. The line is drawn with an error term in `i32`, and its loop
stops only on the end point. Between end points with coordinates below `2 ^ 29` no operation leaves `i32`, and
the loop is a walk over the grid that ends where it should. -/

namespace UnixKernel

/-- `u32 as i32`. -/
def asI32 (x : Nat) : Int := Int.bmod x (2 ^ 32)

/-- `i32 as u32`. -/
def asU32 (x : Int) : Nat := (x % 2 ^ 32).toNat

/-- `Vga`, with a width and a height of 12 bits as `new` finds them in the EDID. -/
structure Vga where
  width : Nat
  height : Nat
  width_lt : width < 2 ^ 12
  height_lt : height < 2 ^ 12

/-- The framebuffer, and the points that `set_pixel` was called with. -/
structure Screen (κ : Type) where
  frame : Nat → κ
  plotted : List (Nat × Nat)

namespace Vga

open LineWalk

/-- What `draw_line` computes before its loop. -/
structure Line where
  dx : Int
  dy : Int
  sx : Int
  sy : Int
  x1 : Int
  y1 : Int

/-- The variables of its loop. -/
structure Pen where
  err : Int
  x : Int
  y : Int

variable {κ : Type} (p : Profile) (vga : Vga) (colour : κ)

def record (point : Nat × Nat) : Eff (Screen κ) Halt Unit :=
  fun s => (.ok (), { s with plotted := s.plotted ++ [point] })

/-- `*addr = colour.into()`. -/
def store (offset : Nat) : Eff (Screen κ) Halt Unit :=
  fun s => (.ok (), { s with frame := Function.update s.frame offset colour })

def setPixel (x y : Nat) : Eff (Screen κ) Halt Unit := do
  record (x, y)
  if vga.width ≤ x ∨ vga.height ≤ y then pure ()
  else do
    let row ← Eff.lift (p.fit .panic 32 ((y * vga.width : Nat) : Int))
    let offset ← Eff.lift (p.fit .panic 32 ((row + x : Nat) : Int))
    store colour offset

def aim (x0 y0 x1 y1 : Nat) : Except Halt (Line × Pen) := do
  let right ← p.fitSigned .panic 32 (asI32 x1 - asI32 x0)
  let dx ← p.fitSigned .panic 32 |right|
  let down ← p.fitSigned .panic 32 (asI32 y1 - asI32 y0)
  let rise ← p.fitSigned .panic 32 |down|
  let dy ← p.fitSigned .panic 32 (-rise)
  let err ← p.fitSigned .panic 32 (dx + dy)
  pure (⟨dx, dy, if x0 < x1 then 1 else -1, if y0 < y1 then 1 else -1, asI32 x1, asI32 y1⟩,
    ⟨err, asI32 x0, asI32 y0⟩)

def stepX (line : Line) (e2 : Int) (pen : Pen) : Except Halt Pen :=
  if line.dy ≤ e2 then do
    let err ← p.fitSigned .panic 32 (pen.err + line.dy)
    let x ← p.fitSigned .panic 32 (pen.x + line.sx)
    pure { pen with err, x }
  else pure pen

def stepY (line : Line) (e2 : Int) (pen : Pen) : Except Halt Pen :=
  if e2 ≤ line.dx then do
    let err ← p.fitSigned .panic 32 (pen.err + line.dx)
    let y ← p.fitSigned .panic 32 (pen.y + line.sy)
    pure { pen with err, y }
  else pure pen

/-- The part of the loop behind the check for the end point. -/
def move (line : Line) (pen : Pen) : Except Halt Pen := do
  let e2 ← p.fitSigned .panic 32 (2 * pen.err)
  let pen ← stepX p line e2 pen
  stepY p line e2 pen

/-- The loop of `draw_line`, for at most `fuel` points. -/
def drawLoop (line : Line) : Nat → Pen → Eff (Screen κ) Halt Unit
  | 0, _ => Eff.lift (.error .depth)
  | fuel + 1, pen => do
      setPixel p vga colour (asU32 pen.x) (asU32 pen.y)
      if pen.x = line.x1 ∧ pen.y = line.y1 then pure ()
      else do
        let pen ← Eff.lift (move p line pen)
        drawLoop line fuel pen

def drawLine (x0 y0 x1 y1 fuel : Nat) : Eff (Screen κ) Halt Unit := do
  let (line, pen) ← Eff.lift (aim p x0 y0 x1 y1)
  drawLoop p vga colour line fuel pen

/-! ### One point -/

/-- A point on the screen. -/
def paint (s : Screen κ) (point : Nat × Nat) : Screen κ where
  frame := if vga.width ≤ point.1 ∨ vga.height ≤ point.2 then s.frame
    else Function.update s.frame (point.2 * vga.width + point.1) colour
  plotted := s.plotted ++ [point]

variable {p}

theorem setPixel_eq (x y : Nat) (s : Screen κ) :
    setPixel p vga colour x y s = (.ok (), vga.paint colour s (x, y)) := by
  have hw := vga.width_lt
  have hh := vga.height_lt
  have hrecord : record (x, y) s = (.ok (), { s with plotted := s.plotted ++ [(x, y)] }) := rfl
  rw [setPixel, Eff.bind_of_ok hrecord, paint]
  by_cases hout : vga.width ≤ x ∨ vga.height ≤ y
  · rw [if_pos hout, if_pos hout]
    rfl
  · have hrow : y * vga.width ≤ 2 ^ 12 * 2 ^ 12 := Nat.mul_le_mul (by omega) (by omega)
    rw [if_neg hout, if_neg hout, Profile.fit_of_lt (by omega), Eff.lift_ok_bind, Profile.fit_of_lt (by omega),
      Eff.lift_ok_bind]
    rfl

theorem plotted_foldl_paint (points : List (Nat × Nat)) (s : Screen κ) :
    (points.foldl (vga.paint colour) s).plotted = s.plotted ++ points := by
  induction points generalizing s with
  | nil => exact (List.append_nil _).symm
  | cons point points ih =>
      rw [List.foldl_cons, ih, paint, List.append_assoc]
      rfl

/-! ### The line as a walk -/

/-- The distance between two coordinates. -/
def gap (a b : Nat) : Nat := ((b : Int) - a).natAbs

/-- The step from one coordinate towards another. -/
def toward (a b : Nat) : Int := if a < b then 1 else -1

theorem toward_bounds {a b c : Nat} (ha : a < 2 ^ 29) (hb : b < 2 ^ 29) (hc : c ≤ gap a b) :
    0 ≤ (a : Int) + toward a b * c ∧ (a : Int) + toward a b * c < 2 ^ 29 := by
  unfold gap at hc
  unfold toward
  split_ifs <;> omega

theorem fit_toward {a b c : Nat} (ha : a < 2 ^ 29) (hb : b < 2 ^ 29) (hc : c + 1 ≤ gap a b) :
    p.fitSigned Halt.panic 32 ((a : Int) + toward a b * c + toward a b) = .ok (a + toward a b * (c + 1 : Nat)) := by
  have hplace : (a : Int) + toward a b * c + toward a b = a + toward a b * (c + 1 : Nat) := by
    push_cast
    ring
  obtain ⟨hpos, hlt⟩ := toward_bounds ha hb hc
  rw [hplace]
  exact Profile.fitSigned_of_lt (by omega) (by omega)

theorem add_toward_eq_iff {a b c : Nat} : (a : Int) + toward a b * c = b ↔ c = gap a b := by
  unfold toward gap
  split_ifs <;> omega

theorem asI32_of_lt {x : Nat} (h : x < 2 ^ 29) : asI32 x = x := Int.bmod_eq_of_le (by omega) (by omega)

theorem asU32_of_lt {x : Nat} (h : x < 2 ^ 29) : asU32 x = x := by
  unfold asU32
  omega

theorem asU32_of_bounds {x : Int} (hpos : 0 ≤ x) (hlt : x < 2 ^ 29) : (asU32 x : Int) = x := by
  unfold asU32
  omega

/-- Two points one after the other on a line that is `m` wide and `n` high. -/
structure Neighbour (m n : Nat) (point next : Nat × Nat) : Prop where
  across : gap point.1 next.1 ≤ 1
  down : gap point.2 next.2 ≤ 1
  wide : n ≤ m → gap point.1 next.1 = 1
  high : m ≤ n → gap point.2 next.2 = 1

section Walk

variable (x0 y0 x1 y1 : Nat)

/-- The line between two points. -/
def lineOf : Line := ⟨gap x0 x1, -gap y0 y1, toward x0 x1, toward y0 y1, x1, y1⟩

/-- The pen after the steps of a walk. -/
def penOf (w : Progress) : Pen := ⟨w.err, x0 + toward x0 x1 * w.a, y0 + toward y0 y1 * w.b⟩

/-- The point after the steps of a walk. -/
def pointOf (w : Progress) : Nat × Nat := (asU32 (penOf x0 y0 x1 y1 w).x, asU32 (penOf x0 y0 x1 y1 w).y)

variable {x0 y0 x1 y1}

theorem at_end_iff {w : Progress} {k : Nat} (h : Onto (gap x0 x1) (gap y0 y1) k w) :
    (penOf x0 y0 x1 y1 w).x = (lineOf x0 y0 x1 y1).x1 ∧ (penOf x0 y0 x1 y1 w).y = (lineOf x0 y0 x1 y1).y1 ↔
      k = max (gap x0 x1) (gap y0 y1) := by
  constructor
  · rintro ⟨hx, hy⟩
    have ha : w.a = gap x0 x1 := add_toward_eq_iff.1 hx
    have hb : w.b = gap y0 y1 := add_toward_eq_iff.1 hy
    rcases Nat.le_total (gap y0 y1) (gap x0 x1) with hle | hle
    · rw [max_eq_left hle, ← h.first hle, ha]
    · rw [max_eq_right hle, ← h.second hle, hb]
  · intro hk
    obtain ⟨ha, hb⟩ := h.ends hk
    exact ⟨add_toward_eq_iff.2 ha, add_toward_eq_iff.2 hb⟩

variable (hx0 : x0 < 2 ^ 29) (hy0 : y0 < 2 ^ 29) (hx1 : x1 < 2 ^ 29) (hy1 : y1 < 2 ^ 29)

include hx0 hy0 in
theorem pointOf_start : pointOf x0 y0 x1 y1 (start (gap x0 x1) (gap y0 y1)) = (x0, y0) := by
  have hx : (x0 : Int) + toward x0 x1 * (0 : Nat) = x0 := by rw [Nat.cast_zero, Int.mul_zero, Int.add_zero]
  have hy : (y0 : Int) + toward y0 y1 * (0 : Nat) = y0 := by rw [Nat.cast_zero, Int.mul_zero, Int.add_zero]
  apply Prod.ext
  · exact (congrArg asU32 hx).trans (asU32_of_lt hx0)
  · exact (congrArg asU32 hy).trans (asU32_of_lt hy0)

include hx1 hy1 in
theorem pointOf_end {w : Progress} (h : Onto (gap x0 x1) (gap y0 y1) (max (gap x0 x1) (gap y0 y1)) w) :
    pointOf x0 y0 x1 y1 w = (x1, y1) := by
  obtain ⟨hx, hy⟩ := (at_end_iff h).2 rfl
  apply Prod.ext
  · exact (congrArg asU32 hx).trans (asU32_of_lt hx1)
  · exact (congrArg asU32 hy).trans (asU32_of_lt hy1)

include hx0 hy0 hx1 hy1

theorem aim_eq : aim p x0 y0 x1 y1 =
    .ok (lineOf x0 y0 x1 y1, penOf x0 y0 x1 y1 (start (gap x0 x1) (gap y0 y1))) := by
  have hx : |(x1 : Int) - x0| = gap x0 x1 := Int.abs_eq_natAbs _
  have hy : |(y1 : Int) - y0| = gap y0 y1 := Int.abs_eq_natAbs _
  have hgx : gap x0 x1 < 2 ^ 29 := by unfold gap; omega
  have hgy : gap y0 y1 < 2 ^ 29 := by unfold gap; omega
  rw [aim, asI32_of_lt hx0, asI32_of_lt hy0, asI32_of_lt hx1, asI32_of_lt hy1,
    Profile.fitSigned_of_lt (by omega) (by omega), ok_bind, hx, Profile.fitSigned_of_lt (by omega) (by omega),
    ok_bind, Profile.fitSigned_of_lt (by omega) (by omega), ok_bind, hy,
    Profile.fitSigned_of_lt (by omega) (by omega), ok_bind, Profile.fitSigned_of_lt (by omega) (by omega),
    ok_bind, Profile.fitSigned_of_lt (by omega) (by omega), ok_bind]
  simp [lineOf, penOf, start, toward, Int.sub_eq_add_neg, pure, Except.pure]

theorem err_bounds {w : Progress} {k : Nat} (h : Onto (gap x0 x1) (gap y0 y1) k w) :
    gap x0 x1 < 2 ^ 29 ∧ gap y0 y1 < 2 ^ 29 ∧ -(3 * 2 ^ 29) ≤ 2 * w.err ∧ 2 * w.err ≤ 3 * 2 ^ 29 := by
  have hx : gap x0 x1 < 2 ^ 29 := by unfold gap; omega
  have hy : gap y0 y1 < 2 ^ 29 := by unfold gap; omega
  have hlow := h.low
  have hhigh := h.high
  exact ⟨hx, hy, by omega, by omega⟩

theorem stepX_eq {w : Progress} {k : Nat} (h : Onto (gap x0 x1) (gap y0 y1) k w)
    (hnext : (advance (gap x0 x1) (gap y0 y1) w).a ≤ gap x0 x1) :
    stepX p (lineOf x0 y0 x1 y1) (2 * w.err) (penOf x0 y0 x1 y1 w) = .ok (penOf x0 y0 x1 y1
      ⟨(advance (gap x0 x1) (gap y0 y1) w).a, w.b,
        w.err + if -(gap y0 y1 : Int) ≤ 2 * w.err then -(gap y0 y1 : Int) else 0⟩) := by
  obtain ⟨hgx, hgy, hlow, hhigh⟩ := err_bounds hx0 hy0 hx1 hy1 h
  unfold advance at hnext ⊢
  unfold stepX lineOf penOf
  dsimp only at hnext ⊢
  split_ifs at hnext ⊢ with hstep
  · rw [Profile.fitSigned_of_lt (by omega) (by omega), ok_bind, fit_toward hx0 hx1 hnext, ok_bind]
    rfl
  · rw [Int.add_zero]
    rfl

theorem stepY_eq {w : Progress} {k : Nat} {err : Int} {a : Nat} (h : Onto (gap x0 x1) (gap y0 y1) k w)
    (hlow' : -(3 * 2 ^ 29) ≤ err) (hhigh' : err ≤ 3 * 2 ^ 28)
    (hnext : (advance (gap x0 x1) (gap y0 y1) w).b ≤ gap y0 y1) :
    stepY p (lineOf x0 y0 x1 y1) (2 * w.err) (penOf x0 y0 x1 y1 ⟨a, w.b, err⟩) = .ok (penOf x0 y0 x1 y1
      ⟨a, (advance (gap x0 x1) (gap y0 y1) w).b, err + if 2 * w.err ≤ gap x0 x1 then (gap x0 x1 : Int) else 0⟩) := by
  obtain ⟨hgx, hgy, -, -⟩ := err_bounds hx0 hy0 hx1 hy1 h
  unfold advance at hnext ⊢
  unfold stepY lineOf penOf
  dsimp only at hnext ⊢
  split_ifs at hnext ⊢ with hstep
  · rw [Profile.fitSigned_of_lt (by omega) (by omega), ok_bind, fit_toward hy0 hy1 hnext, ok_bind]
    rfl
  · rw [Int.add_zero]
    rfl

theorem move_eq {w : Progress} {k : Nat} (h : Onto (gap x0 x1) (gap y0 y1) k w)
    (hnext : Onto (gap x0 x1) (gap y0 y1) (k + 1) (advance (gap x0 x1) (gap y0 y1) w)) :
    move p (lineOf x0 y0 x1 y1) (penOf x0 y0 x1 y1 w) =
      .ok (penOf x0 y0 x1 y1 (advance (gap x0 x1) (gap y0 y1) w)) := by
  obtain ⟨hgx, hgy, hlow, hhigh⟩ := err_bounds hx0 hy0 hx1 hy1 h
  have hmid : ∀ c : Prop, [Decidable c] → -(3 * 2 ^ 29) ≤ (w.err + if c then -(gap y0 y1 : Int) else 0) ∧
      (w.err + if c then -(gap y0 y1 : Int) else 0) ≤ 3 * 2 ^ 28 := by
    intro c _
    split_ifs <;> omega
  have hdouble : p.fitSigned Halt.panic 32 (2 * (penOf x0 y0 x1 y1 w).err) = .ok (2 * w.err) :=
    Profile.fitSigned_of_lt (by show _ ≤ 2 * w.err; omega) (by show 2 * w.err < _; omega)
  rw [move, hdouble, ok_bind, stepX_eq hx0 hy0 hx1 hy1 h hnext.a_le, ok_bind,
    stepY_eq hx0 hy0 hx1 hy1 h (hmid _).1 (hmid _).2 hnext.b_le]
  rfl

theorem drawLoop_eq {k j fuel : Nat} (hk : k + j = max (gap x0 x1) (gap y0 y1)) (hfuel : j < fuel) (s : Screen κ) :
    drawLoop p vga colour (lineOf x0 y0 x1 y1) fuel (penOf x0 y0 x1 y1 (path (gap x0 x1) (gap y0 y1) k)) s =
      (.ok (), ((List.range' k (j + 1)).map fun i => pointOf x0 y0 x1 y1 (path (gap x0 x1) (gap y0 y1) i)).foldl
        (vga.paint colour) s) := by
  -- on the rounds left, with the fuel that they need
  induction j generalizing k fuel s with
  | zero =>
      obtain ⟨fuel, rfl⟩ : ∃ rest, fuel = rest + 1 := ⟨fuel - 1, by omega⟩
      have hend := (at_end_iff (onto_path (k := k) (by omega))).2 hk
      rw [drawLoop, Eff.bind_of_ok (setPixel_eq vga colour _ _ s), if_pos hend]
      rfl
  | succ j ih =>
      obtain ⟨fuel, rfl⟩ : ∃ rest, fuel = rest + 1 := ⟨fuel - 1, by omega⟩
      have hhere : Onto (gap x0 x1) (gap y0 y1) k _ := onto_path (by omega)
      have hmid := mt (at_end_iff hhere).1 (by omega)
      have hmove := move_eq (p := p) hx0 hy0 hx1 hy1 hhere (onto_path (k := k + 1) (by omega))
      rw [drawLoop, Eff.bind_of_ok (setPixel_eq vga colour _ _ s), if_neg hmid, hmove, Eff.lift_ok_bind]
      exact ih (k := k + 1) (by omega) (by omega) _

theorem drawLine_eq {fuel : Nat} (hfuel : max (gap x0 x1) (gap y0 y1) < fuel) (s : Screen κ) :
    drawLine p vga colour x0 y0 x1 y1 fuel s =
      (.ok (), ((List.range (max (gap x0 x1) (gap y0 y1) + 1)).map
        fun i => pointOf x0 y0 x1 y1 (path (gap x0 x1) (gap y0 y1) i)).foldl (vga.paint colour) s) := by
  rw [drawLine, aim_eq hx0 hy0 hx1 hy1, Eff.lift_ok_bind, List.range_eq_range']
  exact drawLoop_eq vga colour hx0 hy0 hx1 hy1 (Nat.zero_add _) hfuel s

omit hy0 hy1 in
theorem gap_place {c c' : Nat} (hc : c ≤ gap x0 x1) (hc' : c' ≤ gap x0 x1) (hle : c ≤ c') :
    gap (asU32 (x0 + toward x0 x1 * c)) (asU32 (x0 + toward x0 x1 * c')) = c' - c := by
  obtain ⟨hpos, hlt⟩ := toward_bounds hx0 hx1 hc
  obtain ⟨hpos', hlt'⟩ := toward_bounds hx0 hx1 hc'
  have hplace := asU32_of_bounds hpos hlt
  have hplace' := asU32_of_bounds hpos' hlt'
  unfold gap
  rw [hplace, hplace']
  unfold toward
  split_ifs <;> omega

theorem neighbour_path {k : Nat} (hk : k < max (gap x0 x1) (gap y0 y1)) :
    Neighbour (gap x0 x1) (gap y0 y1) (pointOf x0 y0 x1 y1 (path (gap x0 x1) (gap y0 y1) k))
      (pointOf x0 y0 x1 y1 (path (gap x0 x1) (gap y0 y1) (k + 1))) := by
  have h := onto_path (k := k) hk.le
  have hnext := onto_path (k := k + 1) hk
  obtain ⟨ha, ha'⟩ := advance_a (m := gap x0 x1) (n := gap y0 y1) (path (gap x0 x1) (gap y0 y1) k)
  obtain ⟨hb, hb'⟩ := advance_b (m := gap x0 x1) (n := gap y0 y1) (path (gap x0 x1) (gap y0 y1) k)
  have hx := gap_place hx0 hx1 h.a_le hnext.a_le ha
  have hy := gap_place hy0 hy1 h.b_le hnext.b_le hb
  refine ⟨hx.trans_le ?_, hy.trans_le ?_, fun hle => hx.trans ?_, fun hle => hy.trans ?_⟩
  · exact Nat.sub_le_iff_le_add'.2 ha'
  · exact Nat.sub_le_iff_le_add'.2 hb'
  · rw [h.first hle, hnext.first hle, Nat.add_sub_cancel_left]
  · rw [h.second hle, hnext.second hle, Nat.add_sub_cancel_left]

/-- A line is drawn in as many points as its longer axis has, from the one end to the other and in steps to a
neighbour, whatever the screen is and whichever way the line goes. -/
theorem drawLine_points (s : Screen κ) : ∃ points : List (Nat × Nat),
    (∀ fuel, max (gap x0 x1) (gap y0 y1) < fuel →
      drawLine p vga colour x0 y0 x1 y1 fuel s = (.ok (), points.foldl (vga.paint colour) s)) ∧
    (points.foldl (vga.paint colour) s).plotted = s.plotted ++ points ∧
    points.length = max (gap x0 x1) (gap y0 y1) + 1 ∧
    points.head? = some (x0, y0) ∧ points.getLast? = some (x1, y1) ∧
    points.IsChain (Neighbour (gap x0 x1) (gap y0 y1)) := by
  refine ⟨_, fun fuel hfuel => drawLine_eq vga colour hx0 hy0 hx1 hy1 hfuel s, plotted_foldl_paint vga colour _ s,
    ?_, ?_, ?_, ?_⟩
  · rw [List.length_map, List.length_range]
  · rw [List.range_succ_eq_map, List.map_cons, List.head?_cons, path, pointOf_start hx0 hy0]
  · rw [List.range_succ, List.map_append, List.map_singleton, List.getLast?_concat,
      pointOf_end hx1 hy1 (onto_path le_rfl)]
  · rw [List.isChain_map, List.isChain_range_succ]
    intro k hk
    exact neighbour_path hx0 hy0 hx1 hy1 hk

end Walk

def vga640 : Vga := ⟨640, 480, by decide, by decide⟩

/-- A line that goes down and to the left, on an empty screen. -/
theorem drawLine_points_steep : ∃ points : List (Nat × Nat),
    (∀ fuel, 5 < fuel → drawLine .dev vga640 true 3 2 0 7 fuel ⟨fun _ => false, []⟩ =
      (.ok (), points.foldl (vga640.paint true) ⟨fun _ => false, []⟩)) ∧
    points.length = 6 ∧ points.head? = some (3, 2) ∧ points.getLast? = some (0, 7) := by
  have hleft : 3 < 2 ^ 29 ∧ 2 < 2 ^ 29 := by decide
  have hright : 0 < 2 ^ 29 ∧ 7 < 2 ^ 29 := by decide
  obtain ⟨points, hdraw, -, hlength, hhead, hlast, -⟩ :=
    drawLine_points (p := .dev) vga640 true hleft.1 hleft.2 hright.1 hright.2 ⟨fun _ => false, []⟩
  exact ⟨points, hdraw, hlength, hhead, hlast⟩

end Vga

end UnixKernel
