import GraphClustering.Proofs.Graph.Restriction

/-!
# Interpolation search

A round of the search looks at the ends of a window and, if these enclose the key and
differ, at a position between them, which lies in the window whatever the values are
(`Window.Open.probe_mem`).  Every second round bisects, so two rounds halve the window
(`Window.exists_search_of_log`).  In an ascending array, with values repeated or not, the
part on one side of that position keeps every position of the key, so the search finds the
key if it is there and nothing otherwise (`Window.answers_of_search`).  The local ids of a
view with ascending vertices are the positions of its vertices (`View.exists_localId`).
-/

namespace GraphClustering

namespace Search

open Relation (ReflTransGen)

variable {arr : Array Int} {key low high : Int} {lo hi fuel fuel' k : Nat}

/-- A guess lies in the window if the key is not above its last value. -/
theorem guess_mem (hlo : lo ≤ hi) (above : key ≤ high) (apart : low < high) :
    lo ≤ guess key low high lo hi ∧ guess key low high lo hi ≤ hi := by
  have span : (0 : Int) ≤ hi - lo := by omega
  have share : (key - low) * (hi - lo) / (high - low) ≤ hi - lo := by
    refine Int.ediv_le_of_le_mul (by omega) ?_
    rw [mul_comm]
    exact mul_le_mul_of_nonneg_left (by omega) span
  rw [guess]
  omega

/-- What is left to search, and whether the next position is guessed. -/
structure Window where
  guessing : Bool
  lo : Nat
  stop : Nat

namespace Window

variable {w w' : Window} {found : Option Nat} {r : Option Nat ⊕ Window}

/-- The number of positions that are left. -/
def width (w : Window) : Nat :=
  w.stop - w.lo

/-- The search from a window on. -/
def search (w : Window) (arr : Array Int) (key : Int) (fuel : Nat) : Option (Option Nat) :=
  searchWithin arr key fuel w.guessing w.lo w.stop

/-- The position between the ends that is looked at. -/
def probe (w : Window) (arr : Array Int) (key : Int) : Nat :=
  if w.guessing then guess key (arr.getD w.lo 0) (arr.getD (w.stop - 1) 0) w.lo (w.stop - 1)
  else (w.lo + (w.stop - 1)) / 2

/-- Whether a round looks at a position between the ends: these enclose the key and differ. -/
structure Open (w : Window) (arr : Array Int) (key : Int) : Prop where
  window : w.lo < w.stop
  first : arr.getD w.lo 0 ≤ key
  last : key ≤ arr.getD (w.stop - 1) 0
  apart : arr.getD w.lo 0 ≠ arr.getD (w.stop - 1) 0

/-! ## Rounds -/

/-- A round of the search: it ends with an answer, or with the window to go on with. -/
inductive Round (arr : Array Int) (key : Int) (w : Window) : Option Nat ⊕ Window → Prop
  | empty : w.stop ≤ w.lo → Round arr key w (.inl none)
  | below : w.lo < w.stop → key < arr.getD w.lo 0 → Round arr key w (.inl none)
  | above : w.lo < w.stop → arr.getD (w.stop - 1) 0 < key → Round arr key w (.inl none)
  | flat : w.lo < w.stop → arr.getD w.lo 0 = key → Round arr key w (.inl (some w.lo))
  | probed : w.Open arr key → arr.getD (w.probe arr key) 0 = key →
      Round arr key w (.inl (some (w.probe arr key)))
  | right : w.Open arr key → arr.getD (w.probe arr key) 0 < key →
      Round arr key w (.inr ⟨!w.guessing, w.probe arr key + 1, w.stop⟩)
  | left : w.Open arr key → key < arr.getD (w.probe arr key) 0 →
      Round arr key w (.inr ⟨!w.guessing, w.lo, w.probe arr key⟩)

theorem search_of_empty (empty : w.stop ≤ w.lo) : w.search arr key fuel = some none := by
  cases fuel <;> rw [search, searchWithin, if_neg empty.not_gt]

/-- Only an empty window needs no round. -/
theorem empty_of_search (ended : w.search arr key 0 = some found) : w.stop ≤ w.lo := by
  by_contra window
  rw [search, searchWithin, if_pos (not_le.mp window)] at ended
  cases ended

/-- The search goes round by round. -/
theorem exists_round (arr : Array Int) (key : Int) (w : Window) : ∃ r, Round arr key w r ∧
    ∀ fuel, w.search arr key (fuel + 1) = r.elim some fun w' => w'.search arr key fuel := by
  rcases Nat.lt_or_ge w.lo w.stop with window | empty
  swap
  · exact ⟨_, .empty empty, fun fuel => search_of_empty empty⟩
  have run : ∀ fuel, w.search arr key (fuel + 1) =
      if key < arr.getD w.lo 0 ∨ arr.getD (w.stop - 1) 0 < key then some none
      else if arr.getD w.lo 0 = arr.getD (w.stop - 1) 0 then
        some (if arr.getD w.lo 0 = key then some w.lo else none)
      else if arr.getD (w.probe arr key) 0 = key then some (some (w.probe arr key))
      else if arr.getD (w.probe arr key) 0 < key then
        search ⟨!w.guessing, w.probe arr key + 1, w.stop⟩ arr key fuel
      else search ⟨!w.guessing, w.lo, w.probe arr key⟩ arr key fuel := fun fuel => by
    rw [search, searchWithin, if_pos window]
    rfl
  simp only [run]
  split_ifs with outside flat start equal small
  · exact ⟨_, outside.elim (.below window) (.above window), fun fuel => rfl⟩
  · exact ⟨_, .flat window start, fun fuel => rfl⟩
  · exact absurd (by omega) start
  all_goals have between : w.Open arr key := ⟨window, by omega, by omega, flat⟩
  · exact ⟨_, .probed between equal, fun fuel => rfl⟩
  · exact ⟨_, .right between small, fun fuel => rfl⟩
  · exact ⟨_, .left between (by omega), fun fuel => rfl⟩

/-- The position that is looked at lies in the window. -/
theorem Open.probe_mem (h : w.Open arr key) :
    w.lo ≤ w.probe arr key ∧ w.probe arr key < w.stop := by
  have window := h.window
  have guessed := guess_mem (Nat.le_sub_one_of_lt window) h.last
    (lt_of_le_of_ne (h.first.trans h.last) h.apart)
  rw [probe]
  split <;> omega

/-- The ends of a window of one position do not differ. -/
theorem Open.two_le_width (h : w.Open arr key) : 2 ≤ w.width := by
  have window := h.window
  have two : w.lo ≠ w.stop - 1 := fun one => h.apart (congrArg (fun i => arr.getD i 0) one)
  rw [width]
  omega

theorem Round.two_le_width (round : Round arr key w (.inr w')) : 2 ≤ w.width := by
  cases round with
  | right between _ | left between _ => exact between.two_le_width

/-- A round narrows the window and changes the way to look. -/
theorem Round.narrows (round : Round arr key w (.inr w')) :
    w'.guessing = !w.guessing ∧ w.lo ≤ w'.lo ∧ w'.stop ≤ w.stop ∧ w'.width < w.width := by
  cases round with
  | right between _ | left between _ =>
      obtain ⟨above, below⟩ := between.probe_mem
      refine ⟨rfl, ?_⟩
      simp only [width]
      omega

/-- A round that bisects leaves half of the window. -/
theorem Round.halves (round : Round arr key w (.inr w')) (bisecting : w.guessing = false) :
    w'.width ≤ w.width / 2 := by
  cases round with
  | right between _ | left between _ =>
      have window := between.window
      simp only [width, probe, bisecting, Bool.false_eq_true, if_false]
      omega

/-! ## Runs -/

/-- The windows of a search, one after the other. -/
def Narrows (arr : Array Int) (key : Int) (w w' : Window) : Prop :=
  Round arr key w (.inr w')

/-- A search that ends has gone through windows up to one whose round gives the answer. -/
theorem exists_last (ended : w.search arr key fuel = some found) :
    ∃ w', ReflTransGen (Narrows arr key) w w' ∧ Round arr key w' (.inl found) := by
  induction fuel generalizing w with
  | zero =>
      have empty := empty_of_search ended
      rw [search_of_empty empty] at ended
      cases ended
      exact ⟨w, .refl, .empty empty⟩
  | succ fuel ih =>
      obtain ⟨r, round, run⟩ := exists_round arr key w
      rw [run] at ended
      cases r with
      | inl _ =>
          cases ended
          exact ⟨w, .refl, round⟩
      | inr w' =>
          obtain ⟨last, windows, answer⟩ := ih ended
          exact ⟨last, .head round windows, answer⟩

/-- With a round for each position the search ends. -/
theorem exists_search (enough : w.width ≤ fuel) : ∃ found, w.search arr key fuel = some found := by
  induction fuel generalizing w with
  | zero =>
      exact ⟨none, search_of_empty (Nat.sub_eq_zero_iff_le.mp (Nat.le_zero.mp enough))⟩
  | succ fuel ih =>
      obtain ⟨r, round, run⟩ := exists_round arr key w
      rw [run]
      cases r with
      | inl found => exact ⟨found, rfl⟩
      | inr w' => exact ih (Nat.le_of_lt_succ (round.narrows.2.2.2.trans_le enough))

/-- More rounds than are needed change nothing. -/
theorem search_mono (ended : w.search arr key fuel = some found) (more : fuel ≤ fuel') :
    w.search arr key fuel' = some found := by
  induction fuel generalizing w fuel' with
  | zero =>
      have empty := empty_of_search ended
      rwa [search_of_empty empty] at ended ⊢
  | succ fuel ih =>
      obtain ⟨fuel', rfl⟩ := Nat.exists_eq_add_of_le' (Nat.le_trans (Nat.le_add_left 1 fuel) more)
      obtain ⟨r, -, run⟩ := exists_round arr key w
      rw [run] at ended ⊢
      cases r with
      | inl _ => exact ended
      | inr w' => exact ih ended (Nat.le_of_succ_le_succ more)

theorem log_halved {n m : Nat} (h : n ≤ m / 2) (two : 2 ≤ m) : Nat.log 2 n + 1 ≤ Nat.log 2 m := by
  rw [Nat.log_of_one_lt_of_le Nat.one_lt_two two]
  exact Nat.succ_le_succ (Nat.log_mono_right h)

/-- A search that starts with a guess ends after two rounds for each halving and one more. -/
theorem exists_search_of_log (guessing : w.guessing = true)
    (enough : 2 * Nat.log 2 w.width + 1 ≤ fuel) : ∃ found, w.search arr key fuel = some found := by
  induction fuel using Nat.strong_induction_on generalizing w with
  | h fuel ih =>
      obtain ⟨fuel, rfl⟩ := Nat.exists_eq_add_of_le' (Nat.le_trans (Nat.le_add_left 1 _) enough)
      obtain ⟨r, guess, run⟩ := exists_round arr key w
      rw [run]
      cases r with
      | inl found => exact ⟨found, rfl⟩
      | inr w' =>
          obtain ⟨turn, -, -, less⟩ := guess.narrows
          rw [guessing] at turn
          have two := guess.two_le_width
          have log : 1 ≤ Nat.log 2 w.width := Nat.log_pos Nat.one_lt_two two
          obtain ⟨fuel, rfl⟩ : ∃ f, fuel = f + 1 := ⟨fuel - 1, by omega⟩
          -- The second of two rounds bisects what the first one left.
          obtain ⟨r, bisection, run⟩ := exists_round arr key w'
          rw [Sum.elim_inr, run]
          cases r with
          | inl found => exact ⟨found, rfl⟩
          | inr w'' =>
              have half := (bisection.halves turn).trans (Nat.div_le_div_right less.le)
              have rest := log_halved half two
              exact ih fuel (by omega) (by rw [bisection.narrows.1, turn]; rfl) (by omega)

/-! ## Answers -/

/-- The positions of a key in a window. -/
def Holds (w : Window) (arr : Array Int) (key : Int) (k : Nat) : Prop :=
  w.lo ≤ k ∧ k < w.stop ∧ arr.getD k 0 = key

/-- Whether an answer is right: a position of the key, or none if the key has no position. -/
def Answers (w : Window) (arr : Array Int) (key : Int) : Option Nat → Prop
  | some k => w.Holds arr key k
  | none => ∀ k, ¬ w.Holds arr key k

/-- Whether the values in a window ascend, with repetition or without. -/
def Ordered (w : Window) (arr : Array Int) : Prop :=
  ∀ i j, w.lo ≤ i → i ≤ j → j < w.stop → arr.getD i 0 ≤ arr.getD j 0

/-- What a round leaves of an ascending window has every position of the key. -/
theorem Round.holds_iff (round : Round arr key w (.inr w')) (ordered : w.Ordered arr) :
    w.Holds arr key k ↔ w'.Holds arr key k := by
  obtain ⟨-, first, last, -⟩ := round.narrows
  refine ⟨?_, fun ⟨h, hk, value⟩ => ⟨first.trans h, hk.trans_le last, value⟩⟩
  rintro ⟨h, hk, rfl⟩
  cases round with
  | right between small =>
      refine ⟨?_, hk, rfl⟩
      by_contra left
      have below := Nat.le_of_lt_succ (not_le.mp left)
      exact absurd (ordered k _ h below between.probe_mem.2) (not_le.mpr small)
  | left between large =>
      refine ⟨h, ?_, rfl⟩
      by_contra right
      exact absurd (ordered _ k between.probe_mem.1 (not_lt.mp right) hk) (not_le.mpr large)

/-- A round over an ascending window ends with a right answer. -/
theorem Round.answers (round : Round arr key w (.inl found)) (ordered : w.Ordered arr) :
    w.Answers arr key found := by
  cases round with
  | empty empty => exact fun k ⟨h, hk, _⟩ => absurd (h.trans_lt hk) empty.not_gt
  | below window small =>
      rintro k ⟨h, hk, rfl⟩
      exact absurd (ordered _ k le_rfl h hk) (not_le.mpr small)
  | above window large =>
      rintro k ⟨h, hk, rfl⟩
      exact absurd (ordered k _ h (by omega) (by omega)) (not_le.mpr large)
  | flat window equal => exact ⟨le_rfl, window, equal⟩
  | probed between equal => exact ⟨between.probe_mem.1, between.probe_mem.2, equal⟩

/-- All windows of a search lie in the first one. -/
theorem within_of_narrows (windows : ReflTransGen (Narrows arr key) w w') :
    w.lo ≤ w'.lo ∧ w'.stop ≤ w.stop := by
  induction windows with
  | refl => exact ⟨le_rfl, le_rfl⟩
  | tail _ round ih =>
      obtain ⟨-, first, last, -⟩ := round.narrows
      exact ⟨ih.1.trans first, last.trans ih.2⟩

theorem Ordered.of_narrows (ordered : w.Ordered arr)
    (windows : ReflTransGen (Narrows arr key) w w') : w'.Ordered arr := by
  obtain ⟨first, last⟩ := within_of_narrows windows
  exact fun i j hi hij hj => ordered i j (first.trans hi) hij (hj.trans_le last)

/-- All windows of a search in an ascending window have every position of the key. -/
theorem holds_iff_of_narrows (ordered : w.Ordered arr)
    (windows : ReflTransGen (Narrows arr key) w w') :
    w.Holds arr key k ↔ w'.Holds arr key k := by
  induction windows with
  | refl => exact Iff.rfl
  | tail windows round ih => exact ih.trans (round.holds_iff (ordered.of_narrows windows))

/-- A search that ends in an ascending window ends with a right answer. -/
theorem answers_of_search (ordered : w.Ordered arr)
    (ended : w.search arr key fuel = some found) : w.Answers arr key found := by
  obtain ⟨last, windows, answer⟩ := exists_last ended
  have answers := answer.answers (ordered.of_narrows windows)
  simpa only [Answers, holds_iff_of_narrows ordered windows] using answers

/-- A key with one position at most is answered by just that position. -/
theorem Answers.eq_some_iff (h : w.Answers arr key found)
    (unique : ∀ i j, w.Holds arr key i → w.Holds arr key j → i = j) :
    found = some k ↔ w.Holds arr key k := by
  cases found with
  | none => exact iff_of_false nofun (h k)
  | some i =>
      rw [Option.some_inj]
      exact ⟨fun same => same ▸ h, unique i k h⟩

end Window

end Search

namespace View

variable {α : Type} {v : View α} {i j : Nat}

theorem getD_vertices_le (ascending : v.vertexList.Pairwise (· < ·)) (hij : i ≤ j)
    (hj : j < v.order) : v.vertices.getD i 0 ≤ v.vertices.getD j 0 := by
  rcases hij.eq_or_lt with rfl | lt
  · exact le_rfl
  · exact (Search.rel_getD ascending lt (hj.trans_eq v.length_vertexList.symm)).le

theorem holds_vertices_iff {id : Int} :
    Search.Window.Holds ⟨true, 0, v.order⟩ v.vertices id i ↔ v.vertices[i]? = some id := by
  rw [Search.Window.Holds, Array.getD_eq_getD_getElem?]
  constructor
  · rintro ⟨-, hi, found⟩
    have hi' : i < v.vertices.size := hi.trans_eq v.length_vertexList.symm
    rw [Array.getElem?_eq_getElem hi'] at found ⊢
    exact congrArg some found
  · intro found
    exact ⟨Nat.zero_le i, lt_order_of_getElem? found, by rw [found, Option.getD_some]⟩

/-- The local id of an id is its position among the vertices; without a position there
is none. -/
theorem exists_localId (ascending : v.vertexList.Pairwise (· < ·)) (id : Int) :
    ∃ found, v.localId id = .ok found ∧ ∀ i, found = some i ↔ v.vertices[i]? = some id := by
  rw [localId]
  split_ifs with empty
  · refine ⟨none, rfl, fun i => iff_of_false nofun fun found => ?_⟩
    exact absurd (lt_order_of_getElem? found) (by omega)
  · let w : Search.Window := ⟨true, 0, v.order⟩
    obtain ⟨found, run⟩ : ∃ found, w.search v.vertices id (v.order - 0) = some found :=
      Search.Window.exists_search le_rfl
    have answers := Search.Window.answers_of_search
      (fun i j _ hij hj => getD_vertices_le ascending hij hj) run
    have stop : ((v.order : Int) - 1 + 1).toNat = v.order := by omega
    have size : v.vertices.size = v.order := v.length_vertexList
    refine ⟨found, ?_, fun i => ?_⟩
    · rw [Search.interpolationSearch, if_neg (by omega), stop]
      exact congrArg (fun r => Except.ok (r.getD none)) run
    · rw [answers.eq_some_iff fun i j hi hj => ?_, holds_vertices_iff]
      exact eq_of_getElem?_vertices (ascending.imp ne_of_lt) (holds_vertices_iff.mp hi)
        (holds_vertices_iff.mp hj)

end View

end GraphClustering
