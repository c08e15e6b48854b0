import Mathlib.Data.List.TakeWhile
import Supryolo.Dashboard
import Supryolo.Lib.Retained

/-!
What the dashboard writes to the terminal. Whatever the view holds, drawing stays
inside the grid and only stores printable characters, so the output is a frame of
full rows in which nothing but the fixed escapes moves the terminal. In the full
layout the newest events stand in it, one in each row of their box.
-/

namespace Supryolo.Dashboard

open Screens Effects

def Printable (c : Char) : Prop := 32 ≤ c.toNat ∧ c.toNat < 127

theorem consoleSafe_printable (text : Text) : ∀ c ∈ consoleSafe text, Printable c := by
  intro c hc
  obtain ⟨given, -, hc⟩ := List.mem_flatMap.mp hc
  split at hc
  · rename_i hgiven
    rwa [List.mem_singleton.mp hc]
  · split at hc
    · rw [List.mem_singleton.mp hc]
      exact ⟨by decide, by decide⟩
    · cases hc

section

variable {s : Size}

def Glyph (cell : Cell) : Prop := Printable cell.c

/-- The program stays inside a grid of this size and draws printable characters. -/
def Draws {α : Type} (s : Size) (x : Canvas Cell α) : Prop := Safe Glyph (s.width * s.height) x

theorem draws_putChars {y : Int} (hy : 0 ≤ y ∧ y < s.height) (color : Color) (maximum : Int)
    {text : Text} (htext : ∀ c ∈ text, Printable c) (x count : Int) :
    Draws s (putChars s y color maximum text x count) := by
  induction text generalizing x count with
  | nil => exact safe_pure ()
  | cons c rest ih =>
      obtain ⟨hc, hrest⟩ := List.forall_mem_cons.mp htext
      unfold putChars
      refine Safe.ite (fun _ => safe_pure ()) fun hinside => ?_
      rw [not_or, ge_iff_le, ge_iff_le, not_le, not_le] at hinside
      have hnext := ih hrest (x + 1) (count + 1)
      refine Safe.ite (fun hx => ?_) fun _ => hnext
      have hstore : Draws s (store (y * s.width + x) ⟨c, color⟩) :=
        safe_store (position_bounds ⟨hx, hinside.2⟩ hy) hc
      exact hstore.bind fun _ => hnext

theorem draws_put (x y : Int) (text : Text) (color : Color) (maximum : Int) :
    Draws s (put s x y text color maximum) := by
  refine Safe.ite (fun _ => safe_pure ()) fun hinside => ?_
  rw [not_or, not_lt, not_le] at hinside
  exact draws_putChars hinside color maximum (consoleSafe_printable text) x 0

theorem draws_putAll (x y : Int) (text : Text) (color : Color) : Draws s (putAll s x y text color) :=
  draws_put x y text color 1000

theorem draws_box (x y w h : Int) (title : Text) : Draws s (box s x y w h title) := by
  refine Safe.ite (fun _ => safe_pure ()) fun _ => ?_
  refine (draws_putAll _ _ _ _).bind fun _ => (draws_putAll _ _ _ _).bind fun _ => ?_
  refine (safe_each fun j _ => (draws_putAll _ _ _ _).bind fun _ => draws_putAll _ _ _ _).bind fun _ => ?_
  exact draws_put _ _ _ _ _

variable {F : Type} (dbl : Doubles F) (v : DashboardView F) (tick : F)

theorem draws_smallDevices (devices : List (DeviceView F)) (y : Int) :
    Draws s (smallDevices s dbl v tick devices y) := by
  induction devices generalizing y with
  | nil => exact safe_pure ()
  | cons d rest ih =>
      unfold smallDevices
      exact Safe.ite (fun _ => safe_pure ()) fun _ => (draws_putAll _ _ _ _).bind fun _ => ih (y + 1)

theorem draws_renderSmall : Draws s (renderSmall s dbl v tick) := by
  refine (draws_putAll _ _ _ _).bind fun _ => (draws_putAll _ _ _ _).bind fun _ => ?_
  refine (draws_putAll _ _ _ _).bind fun _ => (draws_smallDevices dbl v tick _ _).bind fun _ => ?_
  exact draws_put _ _ _ _ _

theorem draws_drawLink : Draws s (drawLink s dbl v) := by
  refine (draws_box _ _ _ _ _).bind fun _ => (draws_box _ _ _ _ _).bind fun _ => ?_
  refine (draws_put _ _ _ _ _).bind fun _ => (draws_put _ _ _ _ _).bind fun _ => ?_
  refine (draws_put _ _ _ _ _).bind fun _ => (draws_put _ _ _ _ _).bind fun _ => ?_
  refine (draws_put _ _ _ _ _).bind fun _ => (draws_put _ _ _ _ _).bind fun _ => ?_
  exact draws_put _ _ _ _ _

theorem draws_drawLogo : Draws s (drawLogo s dbl tick) :=
  (safe_each fun _ _ => draws_put _ _ _ _ _).bind fun _ => draws_putAll _ _ _ _

theorem draws_drawDevice (d : DeviceView F) (y : Int) : Draws s (drawDevice s dbl v tick d y) := by
  refine (draws_put _ _ _ _ _).bind fun _ => (draws_put _ _ _ _ _).bind fun _ => ?_
  refine (draws_put _ _ _ _ _).bind fun _ => (draws_put _ _ _ _ _).bind fun _ => ?_
  refine (draws_put _ _ _ _ _).bind fun _ => (draws_put _ _ _ _ _).bind fun _ => ?_
  refine (draws_put _ _ _ _ _).bind fun _ => (draws_put _ _ _ _ _).bind fun _ => ?_
  refine Safe.ite (fun _ => Safe.ite (fun _ => draws_put _ _ _ _ _) fun _ => safe_pure ()) fun _ => ?_
  refine Safe.ite (fun _ => draws_put _ _ _ _ _) fun _ => ?_
  exact Safe.ite (fun _ => draws_put _ _ _ _ _) fun _ => safe_pure ()

/-- The rows that are drawn belong to devices. -/
theorem draws_drawDevices (offset : Nat) : Draws s (drawDevices s dbl v tick offset) := by
  refine (draws_box _ _ _ _ _).bind fun _ => (draws_putAll _ _ _ _).bind fun _ => ?_
  refine Safe.bind (safe_each fun i hi => ?_) fun _ => ?_
  · have hlt := List.mem_takeWhile_imp hi
    rw [decide_eq_true_eq] at hlt
    rw [List.getElem?_eq_getElem hlt]
    exact draws_drawDevice dbl v tick _ _
  · exact Safe.ite (fun _ => draws_put _ _ _ _ _) fun _ => safe_pure ()

theorem draws_drawEvents : Draws s (drawEvents s v) := by
  refine (draws_box _ _ _ _ _).bind fun _ => safe_each fun i hi => ?_
  have hlt : i < v.events.length := by
    have hi := List.mem_range'_1.mp hi
    omega
  rw [List.getElem?_eq_getElem hlt]
  exact draws_put _ _ _ _ _

/-- Neither layout leaves the grid, at any size. -/
theorem draws_draw (offset : Nat) : Draws s (draw s dbl v tick offset) := by
  refine Safe.ite (fun _ => draws_renderSmall dbl v tick) fun _ => ?_
  refine (draws_drawLink dbl v).bind fun _ => (draws_drawLogo dbl tick).bind fun _ => ?_
  refine (draws_drawDevices dbl v tick offset).bind fun _ => (draws_drawEvents v).bind fun _ => ?_
  exact draws_put _ _ _ _ _

end

section

variable {s : Size}

/-- A text leaves alone what is on its left and the other rows. -/
theorem within_putChars (y : Int) (color : Color) (maximum : Int) (text : Text) (x count : Int) :
    Within (fun i => y * s.width + x ≤ i ∧ i < y * s.width + s.width)
      (putChars s y color maximum text x count) := by
  induction text generalizing x count with
  | nil => exact within_pure ()
  | cons c rest ih =>
      unfold putChars
      refine Within.ite (fun _ => within_pure ()) fun hinside => ?_
      have hnext : Within (fun i => y * s.width + x ≤ i ∧ i < y * s.width + s.width)
          (putChars s y color maximum rest (x + 1) (count + 1)) :=
        (ih (x + 1) (count + 1)).mono fun i h => by omega
      refine Within.ite (fun _ => ?_) fun _ => hnext
      exact (within_store _ (by omega)).bind fun _ => hnext

theorem within_put (x y : Int) (text : Text) (color : Color) (maximum : Int) :
    Within (fun i => y * s.width + x ≤ i ∧ i < y * s.width + s.width) (put s x y text color maximum) :=
  Within.ite (fun _ => within_pure ()) fun _ => within_putChars y color maximum _ x 0

/-- The characters of the text are in the cells from column `x` of row `y` on. -/
def Stands (s : Size) (x y : Int) (text : Text) (grid : List Cell) : Prop :=
  ∀ (i : Nat) (c : Char), text[i]? = some c → (grid[(y * s.width + x + i).toNat]?).map Cell.c = some c

theorem putChars_stands {x y : Int} (hx : 0 ≤ x) (hy : 0 ≤ y ∧ y < s.height) (color : Color)
    (maximum count : Int) (text : Text) {grid : List Cell}
    (hgrid : (grid.length : Int) = s.width * s.height) (hfits : x + (maximum - count) ≤ s.width) :
    Ends (putChars s y color maximum text x count)
      (fun _ => Stands s x y (text.take (maximum - count).toNat)) (fun _ _ => True) grid := by
  induction text generalizing x count grid with
  | nil =>
      intro i c hc
      rw [List.take_nil] at hc
      cases hc
  | cons c rest ih =>
      unfold putChars
      rw [ends_ite]
      constructor
      · intro hfull i c hc
        rw [Int.toNat_of_nonpos (by omega), List.take_zero] at hc
        cases hc
      · intro hroom
        have hbounds : 0 ≤ y * s.width + x ∧ y * s.width + x < s.width * s.height :=
          position_bounds ⟨hx, by omega⟩ hy
        rw [if_pos hx, ends_bind]
        refine (store_ends (⟨c, color⟩ : Cell) (by rw [hgrid]; exact hbounds)).mono ?_ fun _ _ _ => trivial
        rintro _ _ rfl
        have hstored : ((grid.set (y * s.width + x).toNat ⟨c, color⟩).length : Int) =
            s.width * s.height := by
          rw [List.length_set]
          exact hgrid
        have hlater := ih (by omega : 0 ≤ x + 1) (count + 1) hstored (by omega)
        refine (hlater.and (within_putChars y color maximum rest (x + 1) (count + 1) _)).mono ?_
          fun _ _ h => h.1
        rintro _ grid' ⟨hrest, hkept⟩ i d hd
        rw [show (maximum - count).toNat = (maximum - (count + 1)).toNat + 1 by omega,
          List.take_succ_cons] at hd
        cases i with
        | zero =>
            obtain rfl := Option.some.inj hd
            have hfirst : grid'[(y * s.width + x).toNat]? = some ⟨c, color⟩ := by
              rw [hkept _ (by omega), List.getElem?_set_self (by omega)]
            rw [show y * s.width + x + ((0 : Nat) : Int) = y * s.width + x by omega, hfirst]
            rfl
        | succ i =>
            rw [show y * s.width + x + ((i + 1 : Nat) : Int) = y * s.width + (x + 1) + i by omega]
            exact hrest i d hd

theorem put_stands {x y : Int} (hx : 0 ≤ x) (hy : 0 ≤ y ∧ y < s.height) (text : Text) (color : Color)
    {maximum : Int} {grid : List Cell} (hgrid : (grid.length : Int) = s.width * s.height)
    (hfits : x + maximum ≤ s.width) :
    Ends (put s x y text color maximum)
      (fun _ => Stands s x y ((consoleSafe text).take maximum.toNat)) (fun _ _ => True) grid := by
  have h := putChars_stands hx hy color maximum 0 (consoleSafe text) hgrid (by omega)
  rw [Int.sub_zero] at h
  rw [put, if_neg (by omega)]
  exact h

/-- What is drawn in another row lets a text stand. -/
theorem Stands.other {x y y' : Int} {text : Text} {grid grid' : List Cell} (hx : 0 ≤ x) (hy : 0 ≤ y)
    (hne : y ≠ y') (hfits : x + text.length ≤ s.width) (h : Stands s x y text grid)
    (hkept : ∀ i : Nat, ¬ (y' * s.width ≤ i ∧ i < y' * s.width + s.width) → grid'[i]? = grid[i]?) :
    Stands s x y text grid' := by
  intro i c hc
  have hi : i < text.length := (List.getElem?_eq_some_iff.mp hc).1
  have hrow : 0 ≤ y * s.width := Int.mul_nonneg hy (by omega)
  rw [hkept, h i c hc]
  rw [Int.toNat_of_nonneg (by omega)]
  rintro ⟨hfrom, hto⟩
  rcases lt_or_gt_of_ne hne with hlt | hgt
  · have hle := Int.mul_le_mul_of_nonneg_right (show y + 1 ≤ y' by omega) (show 0 ≤ s.width by omega)
    rw [Int.add_mul, Int.one_mul] at hle
    omega
  · have hle := Int.mul_le_mul_of_nonneg_right (show y' + 1 ≤ y by omega) (show 0 ≤ s.width by omega)
    rw [Int.add_mul, Int.one_mul] at hle
    omega

/-- The lines of the box of the events: the newest, each cut at the frame. The
small layout has no such box. -/
def eventLines (s : Size) (events : List Event) : List Text :=
  if s.width < 76 ∨ s.height < 23 then []
  else
    (events.rtake (logHeight s - 2).toNat).map fun e =>
      (consoleSafe (e.time ++ ' ' :: e.message)).take (s.width - 4).toNat

/-- The first `n` lines stand one under the other, below the edge of the box. -/
def Lists (s : Size) (events : List Event) (n : Nat) (grid : List Cell) : Prop :=
  ∀ k < n, ∀ line, (eventLines s events)[k]? = some line → Stands s 2 (logTop s + 1 + k) line grid

variable {F : Type} (dbl : Doubles F) (v : DashboardView F) (tick : F)

theorem length_line_le {events : List Event} {k : Nat} {line : Text} (hwidth : 76 ≤ s.width)
    (h : (eventLines s events)[k]? = some line) : 2 + (line.length : Int) ≤ s.width := by
  rw [eventLines] at h
  split at h
  · cases h
  · rw [List.getElem?_map] at h
    obtain ⟨e, -, rfl⟩ := Option.map_eq_some_iff.mp h
    have hle := List.length_take_le (s.width - 4).toNat (consoleSafe (e.time ++ ' ' :: e.message))
    omega

/-- What is drawn from a row further down on lets the lines stand. -/
theorem Lists.below {events : List Event} {n : Nat} {grid grid' : List Cell} {y' : Int}
    (hwidth : 76 ≤ s.width) (hheight : 23 ≤ s.height) (hbelow : logTop s + 1 + n ≤ y')
    (h : Lists s events n grid)
    (hkept : ∀ i : Nat, ¬ (y' * s.width ≤ i ∧ i < y' * s.width + s.width) → grid'[i]? = grid[i]?) :
    Lists s events n grid' := by
  intro k hk line hline
  have htop : 0 ≤ logTop s := by
    rw [logTop, logHeight]
    omega
  exact (h k hk line hline).other (by omega) (by omega) (by omega) (length_line_le hwidth hline) hkept

theorem drawEvents_lists (hwidth : 76 ≤ s.width) (hheight : 23 ≤ s.height) {grid : List Cell}
    (hgrid : Filled Glyph (s.width * s.height) grid) :
    Ends (drawEvents s v) (fun _ => Lists s v.events (eventLines s v.events).length) (fun _ _ => True)
      grid := by
  have hsmall : ¬ (s.width < 76 ∨ s.height < 23) := by omega
  have htop : 0 ≤ logTop s ∧ logTop s + logHeight s < s.height := by
    rw [logTop, logHeight]
    omega
  set rows := (logHeight s - 2).toNat with hrows
  set first := if v.events.length > rows then v.events.length - rows else 0 with hfirst
  have hsub : first = v.events.length - rows := by
    rw [hfirst]
    split <;> omega
  have hlines : eventLines s v.events = (v.events.rtake rows).map fun e =>
      (consoleSafe (e.time ++ ' ' :: e.message)).take (s.width - 4).toNat := by
    rw [eventLines, if_neg hsmall]
  have hlength : (eventLines s v.events).length = v.events.length - first := by
    rw [hlines, List.length_map, List.rtake, List.length_drop, hsub]
  rw [drawEvents, ends_bind]
  refine (draws_box _ _ _ _ _ grid hgrid).mono ?_ fun _ _ _ => trivial
  intro _ boxed hboxed
  dsimp only
  rw [← hrows, ← hfirst, hlength, each, List.range'_eq_map_range, List.foldlM_map]
  refine (ends_foldlM_range (I := fun n _ grid => Filled Glyph (s.width * s.height) grid ∧
    Lists s v.events n grid) ?_ ⟨hboxed, fun k hk => absurd hk (Nat.not_lt_zero k)⟩).mono
    (fun _ _ h => h.2) fun _ _ h => h
  rintro n hn _ grid ⟨hfilled, hlists⟩
  have hat : first + n < v.events.length := by omega
  have hnew : (eventLines s v.events)[n]? = some ((consoleSafe (v.events[first + n].time ++
      ' ' :: v.events[first + n].message)).take (s.width - 4).toNat) := by
    rw [hlines, List.getElem?_map, List.rtake, ← hsub, List.getElem?_drop,
      List.getElem?_eq_getElem hat]
    rfl
  rw [List.getElem?_eq_getElem hat, Nat.add_sub_cancel_left]
  refine ((put_stands (by omega) (by omega) _ _ hfilled.size (by omega)).and
    ((within_put 2 (logTop s + 1 + n) _ _ _ grid).and (draws_put _ _ _ _ _ grid hfilled))).mono ?_
    fun _ _ _ => trivial
  rintro _ grid' ⟨hstands, hkept, hfilled'⟩
  refine ⟨hfilled', ?_⟩
  intro k hk line hline
  rcases Nat.lt_succ_iff_lt_or_eq.mp hk with hlt | rfl
  · exact hlists.below hwidth hheight le_rfl
      (fun i hi => hkept i fun hregion => hi ⟨by omega, hregion.2⟩) k hlt line hline
  · obtain rfl := Option.some.inj (hnew.symm.trans hline)
    exact hstands

/-- At the end of either layout the lines of the events stand in their box. -/
theorem draw_lists (offset : Nat) {grid : List Cell}
    (hgrid : Filled Glyph (s.width * s.height) grid) :
    Ends (draw s dbl v tick offset) (fun _ => Lists s v.events (eventLines s v.events).length)
      (fun _ _ => True) grid := by
  rw [draw, ends_ite]
  constructor
  · intro hsmall
    refine Ends.of_forall ?_ fun _ _ => trivial
    intro _ _ k hk
    rw [eventLines, if_pos hsmall] at hk
    exact absurd hk (Nat.not_lt_zero k)
  · intro hfull
    have hlog : (eventLines s v.events).length ≤ (logHeight s - 2).toNat := by
      rw [eventLines, if_neg hfull, List.length_map, List.rtake, List.length_drop]
      omega
    have hheight : 7 ≤ logHeight s := le_max_left 7 _
    rw [renderFull, ends_bind]
    refine (draws_drawLink dbl v grid hgrid).mono ?_ fun _ _ _ => trivial
    intro _ grid hgrid
    rw [ends_bind]
    refine (draws_drawLogo dbl tick grid hgrid).mono ?_ fun _ _ _ => trivial
    intro _ grid hgrid
    rw [ends_bind]
    refine (draws_drawDevices dbl v tick offset grid hgrid).mono ?_ fun _ _ _ => trivial
    intro _ grid hgrid
    rw [ends_bind]
    refine (drawEvents_lists v (by omega) (by omega) hgrid).mono ?_ fun _ _ _ => trivial
    intro _ grid hlists
    refine (within_put 1 (s.height - 1) _ _ _ grid).mono ?_ fun _ _ _ => trivial
    intro _ grid' hkept
    have hlast : logTop s + 1 + (eventLines s v.events).length ≤ s.height - 1 := by
      rw [logTop]
      omega
    exact hlists.below (by omega) (by omega) hlast fun i hi =>
      hkept i fun hregion => hi ⟨by omega, hregion.2⟩

end

/-- A row of a terminal: so many printable characters, and escapes of the colour
table between them. -/
inductive Row : Nat → Text → Prop
  | nil : Row 0 []
  | escape (color : Color) {n : Nat} {rest : Text} (h : Row n rest) : Row n (colors color ++ rest)
  | glyph (c : Char) (hc : Printable c) {n : Nat} {rest : Text} (h : Row n rest) : Row (n + 1) (c :: rest)

theorem Row.append {n m : Nat} {first later : Text} (h : Row n first) (h' : Row m later) :
    Row (n + m) (first ++ later) := by
  induction h with
  | nil => rwa [Nat.zero_add]
  | escape color _ ih =>
      rw [List.append_assoc]
      exact .escape color ih
  | glyph c hc _ ih =>
      rw [Nat.succ_add]
      exact .glyph c hc ih

variable {s : Size}

/-- What a terminal shows of a text: nothing of an escape, which ends in `m`.
The flag tells whether the text begins inside of one. -/
def visible : Bool → Text → Text
  | _, [] => []
  | true, c :: rest => visible (c ≠ 'm') rest
  | false, c :: rest => if c = '\x1b' then visible true rest else c :: visible false rest

theorem visible_escape (color : Color) (rest : Text) :
    visible false (colors color ++ rest) = visible false rest := by
  cases color <;> rfl

theorem visible_glyph {c : Char} (hc : Printable c) (rest : Text) :
    visible false (c :: rest) = c :: visible false rest := by
  have hne : c ≠ '\x1b' := by
    rintro rfl
    exact absurd hc.1 (by decide)
  rw [visible, if_neg hne]

theorem Row.visible_append {n : Nat} {row : Text} (h : Row n row) (later : Text) :
    visible false (row ++ later) = visible false row ++ visible false later := by
  induction h with
  | nil => rfl
  | escape color _ ih => rw [List.append_assoc, visible_escape, visible_escape, ih]
  | glyph c hc _ ih => rw [List.cons_append, visible_glyph hc, visible_glyph hc, ih, List.cons_append]

theorem Row.length_visible {n : Nat} {row : Text} (h : Row n row) : (visible false row).length = n := by
  induction h with
  | nil => rfl
  | escape color _ ih => rw [visible_escape, ih]
  | glyph c hc _ ih => rw [visible_glyph hc, List.length_cons, ih]

/-- The text shows the first `n` cells of row `y`. -/
def Shows (s : Size) (grid : List Cell) (y n : Nat) (row : Text) : Prop :=
  ∀ x < n, (visible false row)[x]? = (grid[(y * s.width + x).toNat]?).map Cell.c

theorem Shows.append {grid : List Cell} {y n : Nat} {row piece : Text} (h : Shows s grid y n row)
    (hrow : Row n row) (hpiece : (visible false piece)[0]? =
      (grid[(y * s.width + n : Int).toNat]?).map Cell.c) : Shows s grid y (n + 1) (row ++ piece) := by
  intro x hx
  rw [hrow.visible_append]
  have hlength := hrow.length_visible
  rcases Nat.lt_succ_iff_lt_or_eq.mp hx with hlt | rfl
  · rw [List.getElem?_append_left (by omega)]
    exact h x hlt
  · rw [List.getElem?_append_right (by omega), hlength, Nat.sub_self, hpiece]

theorem emitCell_ends {grid : List Cell}
    (hgrid : Filled Glyph (s.width * s.height) grid) {x y : Nat}
    (hx : (x : Int) < s.width) (hy : (y : Int) < s.height) (acc : Text × Color) :
    Ends (emitCell s y acc x)
      (fun acc' grid' => grid' = grid ∧ ∃ piece, Row 1 piece ∧
        (visible false piece)[0]? = (grid[(y * s.width + x).toNat]?).map Cell.c ∧
        acc'.1 = acc.1 ++ piece)
      (fun _ _ => False) grid := by
  rw [emitCell, ends_bind]
  refine (load_ends (position_bounds ⟨by omega, hx⟩ ⟨by omega, hy⟩) hgrid).mono ?_ fun _ _ h => h
  rintro cell _ ⟨rfl, hcell, hat⟩
  have hshown : visible false [cell.c] = [cell.c] := visible_glyph hcell []
  rw [hat, ends_ite]
  constructor
  · intro _
    refine ⟨rfl, _, .escape cell.color (.glyph cell.c hcell .nil), ?_, by rw [List.append_assoc]⟩
    rw [visible_escape, hshown]
    rfl
  · intro _
    refine ⟨rfl, _, .glyph cell.c hcell .nil, ?_, rfl⟩
    rw [hshown]
    rfl

theorem emitRow_ends {grid : List Cell} (hgrid : Filled Glyph (s.width * s.height) grid) {y : Nat}
    (hy : (y : Int) < s.height) (acc : Text × Color) :
    Ends (emitRow s acc y)
      (fun acc' grid' => grid' = grid ∧ ∃ row, Row s.width.toNat row ∧
        Shows s grid y s.width.toNat row ∧
        acc'.1 = acc.1 ++ (row ++ if y + 1 < s.height.toNat then "\r\n".toList else []))
      (fun _ _ => False) grid := by
  rw [emitRow, ends_bind]
  refine (ends_foldlM_range (I := fun k acc' grid' => grid' = grid ∧
    ∃ row, Row k row ∧ Shows s grid y k row ∧ acc'.1 = acc.1 ++ row) ?_ ?_).mono ?_ fun _ _ h => h
  · rintro x hx acc' _ ⟨rfl, row, hrow, hshows, hacc⟩
    refine (emitCell_ends hgrid (by omega) hy acc').mono ?_ fun _ _ h => h
    rintro acc'' _ ⟨rfl, piece, hpiece, hshown, hacc'⟩
    exact ⟨rfl, row ++ piece, hrow.append hpiece, hshows.append hrow hshown,
      by rw [hacc', hacc, List.append_assoc]⟩
  · exact ⟨rfl, [], .nil, fun x hx => absurd hx (Nat.not_lt_zero x), (List.append_nil _).symm⟩
  · rintro acc' _ ⟨rfl, row, hrow, hshows, hacc⟩
    rw [ends_ite]
    constructor
    · intro hlast
      exact ⟨rfl, row, hrow, hshows, by rw [hacc, if_pos (by omega), List.append_assoc]⟩
    · intro hlast
      exact ⟨rfl, row, hrow, hshows, by rw [hacc, if_neg (by omega), List.append_nil]⟩

/-- Everything that is in the grid is written, and nothing else. -/
theorem emit_ends {grid : List Cell} (hgrid : Filled Glyph (s.width * s.height) grid) :
    Ends (emit s)
      (fun out _ => ∃ rows, rows.length = s.height.toNat ∧ (∀ row ∈ rows, Row s.width.toNat row) ∧
        (∀ y row, rows[y]? = some row → Shows s grid y s.width.toNat row) ∧
        out = "\x1b[H".toList ++ "\r\n".toList.intercalate rows ++ "\x1b[0m".toList)
      (fun _ _ => False) grid := by
  rw [emit, ends_bind]
  refine (ends_foldlM_range (I := fun k acc grid' => grid' = grid ∧ ∃ rows : List Text,
    rows.length = k ∧ (∀ row ∈ rows, Row s.width.toNat row) ∧
      (∀ y row, rows[y]? = some row → Shows s grid y s.width.toNat row) ∧
      acc.1 = "\x1b[H".toList ++ (rows.mapIdx fun i row =>
        row ++ if i + 1 < s.height.toNat then "\r\n".toList else []).flatten) ?_ ?_).mono ?_ fun _ _ h => h
  · rintro y hy acc _ ⟨rfl, rows, rfl, hrows, hshows, hacc⟩
    refine (emitRow_ends hgrid (by omega) acc).mono ?_ fun _ _ h => h
    rintro acc' _ ⟨rfl, row, hrow, hshown, hacc'⟩
    refine ⟨rfl, rows ++ [row], by rw [List.length_append]; rfl, ?_, ?_, ?_⟩
    · exact List.forall_mem_append.mpr ⟨hrows, by simpa using hrow⟩
    · intro y' row' hy'
      rw [List.getElem?_append] at hy'
      split at hy'
      · exact hshows y' row' hy'
      · have hindex := (List.getElem?_eq_some_iff.mp hy').1
        rw [List.length_singleton] at hindex
        obtain rfl : y' = rows.length := by omega
        rw [Nat.sub_self] at hy'
        obtain rfl := Option.some.inj hy'
        exact hshown
    · rw [hacc', hacc, List.append_assoc, List.mapIdx_concat, List.flatten_append,
        List.flatten_singleton]
  · exact ⟨rfl, [], rfl, (by simp), (by simp), rfl⟩
  · rintro acc _ ⟨rfl, rows, hlength, hrows, hshows, hacc⟩
    refine ⟨rows, hlength, hrows, hshows, ?_⟩
    rw [hacc, ← hlength, flatten_separated]

/-- The rows of a frame list the newest events, one in each row of their box. -/
def Displays (s : Size) (events : List Event) (rows : List Text) : Prop :=
  ∀ (k : Nat) (line : Text), (eventLines s events)[k]? = some line →
    ∃ row, rows[(logTop s + 1 + k).toNat]? = some row ∧ line <+: (visible false row).drop 2

theorem displays_of_lists {events : List Event} {grid : List Cell} {rows : List Text}
    (hlists : Lists s events (eventLines s events).length grid)
    (hlength : rows.length = s.height.toNat)
    (hshows : ∀ y row, rows[y]? = some row → Shows s grid y s.width.toNat row) :
    Displays s events rows := by
  intro k line hline
  have hk : k < (eventLines s events).length := (List.getElem?_eq_some_iff.mp hline).1
  have hfull : ¬ (s.width < 76 ∨ s.height < 23) := by
    intro hsmall
    rw [eventLines, if_pos hsmall] at hk
    exact Nat.not_lt_zero k hk
  have hlog : (eventLines s events).length ≤ (logHeight s - 2).toNat := by
    rw [eventLines, if_neg hfull, List.length_map, List.rtake, List.length_drop]
    omega
  have hy : (logTop s + 1 + k).toNat < rows.length ∧ 0 ≤ logTop s := by
    rw [hlength, logTop]
    rw [logHeight] at hlog ⊢
    omega
  refine ⟨rows[(logTop s + 1 + k).toNat], List.getElem?_eq_getElem hy.1, ?_⟩
  rw [List.prefix_iff_getElem?]
  intro i hi
  have hwidth := length_line_le (by omega) hline
  rw [List.getElem?_drop, hshows _ _ (List.getElem?_eq_getElem hy.1) (2 + i) (by omega)]
  have hstands := hlists k hk line hline i _ (List.getElem?_eq_getElem hi)
  have hrow : (((logTop s + 1 + k).toNat : Nat) : Int) * s.width + (2 + i : Nat) =
      (logTop s + 1 + k) * s.width + 2 + i := by
    rw [Int.toNat_of_nonneg (by omega)]
    omega
  rw [hrow, hstands]

theorem renderDashboard_rows {F : Type} (dbl : Doubles F) (v : DashboardView F)
    (width height : Int) (tick : F) (offset : Nat) :
    ∃ rows : List Text, rows.length = (clamp height 5 200).toNat ∧
      (∀ row ∈ rows, Row (clamp width 20 500).toNat row) ∧
      Displays ⟨clamp width 20 500, clamp height 5 200⟩ v.events rows ∧
      renderDashboard dbl v width height tick offset =
        .ok ("\x1b[H".toList ++ "\r\n".toList.intercalate rows ++ "\x1b[0m".toList) := by
  have hclamp (x lo hi : Int) (hlo : 0 ≤ lo) (hle : lo ≤ hi) : 0 ≤ clamp x lo hi := by
    unfold clamp
    split
    · exact hlo
    · split <;> omega
  have hwidth := hclamp width 20 500 (by decide) (by decide)
  have hheight := hclamp height 5 200 (by decide) (by decide)
  have hempty : Filled Glyph (clamp width 20 500 * clamp height 5 200)
      (List.replicate (clamp width 20 500 * clamp height 5 200).toNat ({} : Cell)) := by
    refine ⟨?_, ?_⟩
    · rw [List.length_replicate, Int.toNat_of_nonneg (Int.mul_nonneg hwidth hheight)]
    · intro cell hcell
      rw [List.eq_of_mem_replicate hcell]
      exact ⟨by decide, by decide⟩
  have hemit {grid : List Cell} (hgrid : Filled Glyph (clamp width 20 500 * clamp height 5 200) grid)
      (hlists : Lists ⟨clamp width 20 500, clamp height 5 200⟩ v.events
        (eventLines ⟨clamp width 20 500, clamp height 5 200⟩ v.events).length grid) :
      Ends (emit ⟨clamp width 20 500, clamp height 5 200⟩) (fun out _ => ∃ rows : List Text,
        rows.length = (clamp height 5 200).toNat ∧
        (∀ row ∈ rows, Row (clamp width 20 500).toNat row) ∧
        Displays ⟨clamp width 20 500, clamp height 5 200⟩ v.events rows ∧
        out = "\x1b[H".toList ++ "\r\n".toList.intercalate rows ++ "\x1b[0m".toList)
        (fun _ _ => False) grid := by
    refine (emit_ends hgrid).mono ?_ fun _ _ h => h
    rintro out _ ⟨rows, hlength, hrows, hshows, hout⟩
    exact ⟨rows, hlength, hrows, displays_of_lists hlists hlength hshows, hout⟩
  have hrun : Ends (do draw ⟨clamp width 20 500, clamp height 5 200⟩ dbl v tick offset; emit _) _ _ _ :=
    (ends_bind _ _).mpr (((draws_draw dbl v tick offset _ hempty).and
      (draw_lists dbl v tick offset hempty)).mono (fun _ _ h => hemit h.1 h.2) fun _ _ h => h.1)
  unfold renderDashboard
  dsimp only
  cases hresult : (do draw ⟨clamp width 20 500, clamp height 5 200⟩ dbl v tick offset; emit _ :
      Canvas Cell Text) (List.replicate (clamp width 20 500 * clamp height 5 200).toNat ({} : Cell)) with
  | ok out grid =>
      obtain ⟨rows, hlength, hrows, hdisplays, rfl⟩ := hrun.ok hresult
      exact ⟨rows, hlength, hrows, hdisplays, rfl⟩
  | error e grid => exact (hrun.error hresult).elim

/-- The output is the cursor home escape, a row for each line of the terminal, of
exactly its width, and the reset escape, for every view. Nothing outside of the
grid is accessed. -/
theorem render_dashboard_frame {F : Type} (dbl : Doubles F) (v : DashboardView F)
    (width height : Int) (tick : F) (offset : Nat) :
    ∃ rows : List Text, rows.length = (clamp height 5 200).toNat ∧
      (∀ row ∈ rows, Row (clamp width 20 500).toNat row) ∧
      renderDashboard dbl v width height tick offset =
        .ok ("\x1b[H".toList ++ "\r\n".toList.intercalate rows ++ "\x1b[0m".toList) := by
  obtain ⟨rows, hlength, hrows, -, hout⟩ := renderDashboard_rows dbl v width height tick offset
  exact ⟨rows, hlength, hrows, hout⟩

end Supryolo.Dashboard
