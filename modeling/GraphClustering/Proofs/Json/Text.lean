import GraphClustering.Json.Reader
import GraphClustering.Json.Writer
import Mathlib

/-!
# What is written is read again

A text is read as a value whatever stands behind it, as long as it does not go on with
what could be a part of a number.  The text of an array or an object is read by reading
its items or fields one after the other (`items_joined`, `fields_joined`), so that documents
of whole numbers are read as they were written (`read_pretty`).
-/

namespace GraphClustering.Json

open Decimal

variable {s tail : List Char} {v : Json} {fuel : Nat}

/-! ## Whole numbers -/

/-- Whether a text does not go on with a number. -/
def Stops (tail : List Char) : Prop :=
  tail = [] ∨ ∃ rest, tail = ',' :: rest ∨ tail = '\n' :: rest

theorem asciiDigits_append {ds : List Char} (digits : ∀ c ∈ ds, c.isDigit)
    (stops : Stops tail) : asciiDigits (ds ++ tail) = (ds.map fun c => c.toNat - 48, tail) := by
  induction ds with
  | nil =>
      obtain rfl | ⟨rest, rfl | rfl⟩ := stops <;> rfl
  | cons c ds ih =>
      obtain ⟨first, others⟩ := List.forall_mem_cons.mp digits
      rw [Char.isDigit, Bool.and_eq_true, decide_eq_true_iff, decide_eq_true_iff] at first
      have digit : '0' ≤ c ∧ c ≤ '9' := first
      rw [List.cons_append, asciiDigits, if_pos digit, ih others]
      rfl

theorem ofDigits_toDigits (n : Nat) :
    ofDigits ((Nat.toDigits 10 n).map fun c => c.toNat - 48) = n := by
  rw [ofDigits, List.foldl_map]
  have := Nat.ofDigitChars_ten_toDigits (n := n)
  rw [Nat.ofDigitChars_eq_foldl] at this
  exact this

/-- No number but zero starts with a zero. -/
theorem head_toDigits {n : Nat} (pos : 0 < n) :
    ∃ c ds, Nat.toDigits 10 n = c :: ds ∧ c ≠ '0' := by
  induction n using Nat.strongRecOn with
  | ind n ih =>
      by_cases small : n < 10
      · rw [Nat.toDigits_of_lt_base small]
        refine ⟨_, _, rfl, ?_⟩
        interval_cases n <;> decide
      · rw [not_lt] at small
        obtain ⟨c, ds, first, ne⟩ := ih (n / 10) (by omega) (by omega)
        rw [Nat.toDigits_of_base_le (by decide) small, first]
        exact ⟨c, _, rfl, ne⟩

theorem wholePart_toDigits (n : Nat) (stops : Stops tail) :
    wholePart (Nat.toDigits 10 n ++ tail) =
      ((Nat.toDigits 10 n).map fun c => c.toNat - 48, tail) := by
  rcases Nat.eq_zero_or_pos n with rfl | pos
  · rfl
  · have digits : ∀ c ∈ Nat.toDigits 10 n, c.isDigit := fun c =>
      Nat.isDigit_of_mem_toDigits (by decide) (by decide)
    have read := asciiDigits_append digits stops
    obtain ⟨c, ds, first, ne⟩ := head_toDigits pos
    rw [first] at read ⊢
    rw [← read, List.cons_append, wholePart]
    rintro rest ⟨⟩
    exact ne rfl

theorem number_toDigits (negative : Bool) {n : Nat} (stops : Stops tail)
    (short : (Nat.toDigits 10 n).length ≤ digitLimit) :
    number negative (Nat.toDigits 10 n ++ tail) =
      .ok (.int (if negative then -n else n), tail) := by
  have fraction : fractionPart tail = ([], tail) := by
    obtain rfl | ⟨rest, rfl | rfl⟩ := stops <;> rfl
  have exponent : exponentPart tail = (none, tail) := by
    obtain rfl | ⟨rest, rfl | rfl⟩ := stops <;> rfl
  have filled : ((Nat.toDigits 10 n).map fun c => c.toNat - 48).isEmpty = false := by
    rw [List.isEmpty_map]
    exact List.isEmpty_eq_false_iff.mpr Nat.toDigits_ne_nil
  rw [number, wholePart_toDigits n stops]
  simp only [filled, fraction, exponent, ofDigits_toDigits, List.length_map,
    if_neg (Nat.not_lt.mpr short)]
  rfl

/-! ## Values -/

/-- Whether a text starts with neither a blank nor a closing bracket. -/
def Solid (s : List Char) : Prop :=
  ∃ c rest, s = c :: rest ∧ c ∉ [' ', '\t', '\n', '\r', ']', '\x7d']

theorem Solid.append (solid : Solid s) (tail : List Char) : Solid (s ++ tail) := by
  obtain ⟨c, rest, rfl, ne⟩ := solid
  exact ⟨c, rest ++ tail, rfl, ne⟩

theorem Solid.skipBlanks (solid : Solid s) : skipBlanks s = s := by
  obtain ⟨c, rest, rfl, ne⟩ := solid
  simp only [List.mem_cons, List.not_mem_nil, or_false, not_or] at ne
  rw [Json.skipBlanks, List.dropWhile_cons_of_neg]
  simp [ne]

/-- Whether a text is read as a value, whatever stands behind it. -/
structure Reads (s : List Char) (v : Json) : Prop where
  solid : Solid s
  value : ∀ fuel tail, 2 * s.length ≤ fuel + 1 → Stops tail →
    value (fuel + 1) (s ++ tail) = .ok (v, tail)

theorem Reads.read (reads : Reads s v) (le : 2 * s.length ≤ fuel) (stops : Stops tail) :
    Json.value fuel (s ++ tail) = .ok (v, tail) := by
  cases fuel with
  | zero =>
      obtain ⟨c, rest, rfl, -⟩ := reads.solid
      rw [List.length_cons] at le
      omega
  | succ fuel => exact reads.value fuel tail le stops

theorem reads_null : Reads "null".toList .null :=
  ⟨⟨_, _, rfl, by decide⟩, fun _ _ _ _ => rfl⟩

theorem word?_digits {c : Char} {rest : List Char} (digit : c.isDigit) :
    word? (c :: rest) = none := by
  have ne : ∀ d : Char, ¬ d.isDigit → ¬ d = c := fun d hd same => hd (same ▸ digit)
  simp [word?, words, afterWord, ne]

theorem word?_minus {c : Char} {rest : List Char} (digit : c.isDigit) :
    word? ('-' :: c :: rest) = none := by
  have ne : ∀ d : Char, ¬ d.isDigit → ¬ d = c := fun d hd same => hd (same ▸ digit)
  simp [word?, words, afterWord, ne]

theorem value_scalar {c : Char} {rest : List Char} (plain : c ∉ ['"', '[', '\x7b']) :
    value (fuel + 1) (c :: rest) = scalar (c :: rest) := by
  simp only [List.mem_cons, List.not_mem_nil, or_false, not_or] at plain
  rw [value] <;> simp_all

theorem exists_first_digit (n : Nat) :
    ∃ c ds, Nat.toDigits 10 n = c :: ds ∧ c.isDigit := by
  obtain ⟨c, ds, first⟩ := List.exists_cons_of_ne_nil (Nat.toDigits_ne_nil (b := 10) (n := n))
  have listed : c ∈ Nat.toDigits 10 n := first ▸ List.mem_cons_self
  exact ⟨c, ds, first, Nat.isDigit_of_mem_toDigits (by decide) (by decide) listed⟩

theorem reads_int {z : Int} (short : (Nat.toDigits 10 z.natAbs).length ≤ digitLimit) :
    Reads (Number.intText z).toList (.int z) := by
  have whole (negative) (tail) (stops : Stops tail) := number_toDigits negative stops short
  obtain ⟨c, ds, first, digit⟩ := exists_first_digit z.natAbs
  have ne : ∀ d : Char, ¬ d.isDigit → c ≠ d := fun d hd same => hd (same ▸ digit)
  rw [Number.intText, signText, String.toList_append, digitText, String.toList_ofList]
  rw [first] at whole ⊢
  by_cases below : z < 0
  · rw [decide_eq_true below, if_pos rfl]
    refine ⟨⟨_, _, rfl, by decide⟩, fun fuel tail _ stops => ?_⟩
    have negated : -(z.natAbs : Int) = z := by omega
    calc value (fuel + 1) ('-' :: c :: ds ++ tail)
      _ = scalar ('-' :: c :: ds ++ tail) := value_scalar (by decide)
      _ = number true (c :: ds ++ tail) := by
          rw [List.cons_append, scalar, List.cons_append, word?_minus digit]
      _ = .ok (.int z, tail) := by rw [whole true tail stops, if_pos rfl, negated]
  · rw [decide_eq_false below, if_neg (by decide)]
    refine ⟨⟨c, ds, rfl, by simp [ne]⟩, fun fuel tail _ stops => ?_⟩
    have kept : (z.natAbs : Int) = z := by omega
    calc value (fuel + 1) (c :: ds ++ tail)
      _ = scalar (c :: ds ++ tail) := value_scalar (by simp [ne])
      _ = number false (c :: ds ++ tail) := by
          rw [scalar, List.cons_append, word?_digits digit]
          intro rest minus
          exact ne '-' (by decide) (List.cons.inj minus).1
      _ = .ok (.int z, tail) := by rw [whole false tail stops, if_neg (by decide), kept]

/-! ## Names -/

/-- Whether a character is written as it is. -/
def Unescaped (c : Char) : Prop :=
  0x20 ≤ c.toNat ∧ c.toNat < 0x7f ∧ c ≠ '"' ∧ c ≠ '\\'

instance (c : Char) : Decidable (Unescaped c) :=
  inferInstanceAs (Decidable (_ ∧ _))

variable {name : List Char}

theorem escapeChar_of_unescaped {c : Char} (plain : Unescaped c) :
    escapeChar c = String.singleton c := by
  obtain ⟨low, high, quote, slash⟩ := plain
  have ne : ∀ d : Char, d.toNat < 0x20 → c ≠ d := by
    rintro d hd rfl
    omega
  rw [escapeChar] <;> simp [*]

theorem toList_stringText {name : String} (plain : ∀ c ∈ name.toList, Unescaped c) :
    (stringText name).toList = '"' :: name.toList ++ ['"'] := by
  have kept : name.toList.map escapeChar = name.toList.map String.singleton :=
    List.map_congr_left fun c hc => escapeChar_of_unescaped (plain c hc)
  have single : (name.toList.map String.singleton).flatMap String.toList = name.toList := by
    rw [List.flatMap_map]
    simp
  rw [stringText, kept, String.toList_append, String.toList_append, String.toList_join, single]
  rfl

/-- A name is read up to its closing quote. -/
theorem stringBody_append (plain : ∀ c ∈ name, Unescaped c) (rest : List Char) :
    stringBody (name ++ '"' :: rest) = .ok (name.map Char.toNat, rest) := by
  induction name with
  | nil => rfl
  | cons c name ih =>
      obtain ⟨⟨low, high, quote, slash⟩, others⟩ := List.forall_mem_cons.mp plain
      have accepted : ¬ (decide (c.toNat < 32) || c == '\\') = true := by
        simpa [slash] using low
      rw [List.cons_append, stringBody, ih others, if_neg accepted]
      · rfl
      · exact quote
      · exact fun _ _ _ _ _ escape => absurd escape slash
      · exact fun _ _ escape => absurd escape slash

theorem joinSurrogates_map (plain : ∀ c ∈ name, Unescaped c) :
    joinSurrogates (name.map Char.toNat) = name := by
  induction name with
  | nil => rfl
  | cons c name ih =>
      obtain ⟨⟨_, high, _, _⟩, others⟩ := List.forall_mem_cons.mp plain
      have low : ¬ 0xd800 ≤ c.toNat := by omega
      have rest := ih others
      cases name with
      | nil => rw [List.map_singleton, joinSurrogates, if_neg fun h => low h.1, Char.ofNat_toNat]
      | cons d name =>
          rw [List.map_cons, List.map_cons, joinSurrogates, if_neg fun h => low h.1,
            if_neg fun h => low h.1, Char.ofNat_toNat, ← List.map_cons, rest]

/-! ## Blanks -/

theorem toList_newline (depth : Nat) :
    (newline depth).toList = '\n' :: List.replicate (2 * depth) ' ' := by
  rw [newline, String.toList_append, String.toList_ofList, String.toList_ofList]
  exact List.singleton_append

theorem skipBlanks_newline (depth : Nat) (rest : List Char) :
    skipBlanks ((newline depth).toList ++ rest) = skipBlanks rest := by
  have spaces : ∀ n, skipBlanks (List.replicate n ' ' ++ rest) = skipBlanks rest := by
    intro n
    induction n with
    | zero => rfl
    | succ n ih => exact ih
  rw [toList_newline]
  exact spaces (2 * depth)

theorem skipBlanks_colon (s : List Char) : skipBlanks (':' :: s) = ':' :: s :=
  rfl

theorem stops_newline (depth : Nat) (rest : List Char) :
    Stops ((newline depth).toList ++ rest) := by
  rw [toList_newline]
  exact .inr ⟨_, .inr rfl⟩

/-! ## Items and fields -/

section Items

variable {rest : List Char} {vs : List Json}

theorem items_last (read : value fuel s = .ok (v, rest)) (last : skipBlanks rest = ']' :: tail) :
    items (fuel + 1) s = .ok ([v], tail) := by
  rw [items, read]
  simp only [bind, Except.bind, last]

theorem items_more (read : value fuel s = .ok (v, rest)) {others : List Char}
    (more : skipBlanks rest = ',' :: others)
    (later : items fuel (skipBlanks others) = .ok (vs, tail)) :
    items (fuel + 1) s = .ok (v :: vs, tail) := by
  rw [items, read]
  simp only [bind, Except.bind, more, later]

end Items

/-- Texts with what stands between them. -/
def joined (depth : Nat) (texts : List (List Char)) : List Char :=
  (',' :: (newline depth).toList).intercalate texts

/-- What stands behind the last item. -/
def closing (depth : Nat) (bracket : Char) (tail : List Char) : List Char :=
  (newline depth).toList ++ bracket :: tail

theorem skipBlanks_closing {bracket : Char} (ne : skipBlanks (bracket :: tail) = bracket :: tail)
    (depth : Nat) : skipBlanks (closing depth bracket tail) = bracket :: tail :=
  (skipBlanks_newline depth _).trans ne

variable {texts : List (List Char)} {t u : List Char} {depth : Nat}

theorem joined_singleton : joined depth [t] = t :=
  List.intercalate_singleton ..

theorem joined_cons_cons : joined depth (t :: u :: texts) =
    t ++ ',' :: ((newline depth).toList ++ joined depth (u :: texts)) := by
  rw [joined, List.intercalate_cons_cons, List.append_assoc]
  rfl

theorem Solid.joined (solid : Solid t) (depth : Nat) (texts : List (List Char)) :
    Solid (joined depth (t :: texts)) := by
  cases texts with
  | nil => rwa [joined_singleton]
  | cons u texts =>
      rw [joined_cons_cons]
      exact solid.append _

/-- Items are read one after the other; each call leaves fuel for the shorter rest. -/
theorem items_joined {vs : List Json} (reads : List.Forall₂ Reads texts vs) (filled : texts ≠ [])
    (le : 2 * (joined (depth + 1) texts).length < fuel) :
    items fuel (joined (depth + 1) texts ++ closing depth ']' tail) = .ok (vs, tail) := by
  induction reads generalizing fuel with
  | nil => exact absurd rfl filled
  | cons read reads ih =>
      obtain ⟨fuel, rfl⟩ := Nat.exists_eq_succ_of_ne_zero (Nat.ne_zero_of_lt le)
      cases reads with
      | nil =>
          rw [joined_singleton] at le ⊢
          exact items_last (read.read (by omega) (stops_newline ..)) (skipBlanks_closing rfl depth)
      | cons next reads =>
          rw [joined_cons_cons, List.length_append, List.length_cons, List.length_append] at le
          rw [joined_cons_cons, List.append_assoc]
          refine items_more (read.read (by omega) (.inr ⟨_, .inl rfl⟩)) rfl ?_
          rw [List.append_eq, List.append_assoc, skipBlanks_newline,
            ((next.solid.joined ..).append _).skipBlanks]
          exact ih nofun (by omega)

/-- Whether a text is a name and a text that is read as a value. -/
structure ReadsField (t : List Char) (f : String × Json) : Prop where
  plain : ∀ c ∈ f.1.toList, Unescaped c
  value : ∃ s, t = (stringText f.1).toList ++ ':' :: ' ' :: s ∧ Reads s f.2

namespace ReadsField

variable {f : String × Json}

theorem solid (field : ReadsField t f) : Solid t := by
  obtain ⟨s, rfl, -⟩ := field.value
  rw [toList_stringText field.plain]
  exact ⟨_, _, rfl, by decide⟩

/-- A field is its name in quotes, and its value behind a colon and a blank. -/
theorem exists_value (field : ReadsField t f) (le : 2 * t.length ≤ fuel) {rest : List Char}
    (stops : Stops rest) : ∃ s, t ++ rest = '"' :: (f.1.toList ++ '"' :: (':' :: ' ' :: s)) ∧
      Json.value fuel (skipBlanks (' ' :: s)) = .ok (f.2, rest) := by
  obtain ⟨s, rfl, reads⟩ := field.value
  rw [toList_stringText field.plain] at le ⊢
  refine ⟨s ++ rest, by simp, ?_⟩
  refine Eq.trans (congrArg _ (reads.solid.append rest).skipBlanks) (reads.read ?_ stops)
  simp only [List.length_append, List.length_cons] at le
  omega

theorem ofList_joinSurrogates (field : ReadsField t f) :
    String.ofList (joinSurrogates (f.1.toList.map Char.toNat)) = f.1 := by
  rw [joinSurrogates_map field.plain, String.ofList_toList]

theorem fields_last (field : ReadsField t f) (le : 2 * t.length ≤ fuel) {rest : List Char}
    (stops : Stops rest) (last : skipBlanks rest = '\x7d' :: tail)
    (known : List (String × Json)) :
    fields (fuel + 1) known (t ++ rest) = .ok (putField f.1 f.2 known, tail) := by
  obtain ⟨s, text, read⟩ := field.exists_value le stops
  rw [text, fields, stringBody_append field.plain]
  simp only [bind, Except.bind, field.ofList_joinSurrogates, skipBlanks_colon, read, last]

theorem fields_more (field : ReadsField t f) (le : 2 * t.length ≤ fuel) {rest others : List Char}
    (stops : Stops rest) (more : skipBlanks rest = ',' :: others)
    (known : List (String × Json)) :
    fields (fuel + 1) known (t ++ rest) =
      fields fuel (putField f.1 f.2 known) (skipBlanks others) := by
  obtain ⟨s, text, read⟩ := field.exists_value le stops
  rw [text, fields, stringBody_append field.plain]
  simp only [bind, Except.bind, field.ofList_joinSurrogates, skipBlanks_colon, read, more]

end ReadsField

theorem putField_new {name : String} {known : List (String × Json)}
    (new : name ∉ known.map Prod.fst) (v : Json) :
    putField name v known = known ++ [(name, v)] := by
  induction known with
  | nil => rfl
  | cons f known ih =>
      rw [List.map_cons, List.mem_cons, not_or] at new
      rw [putField, if_neg (by simpa using Ne.symm new.1), ih new.2]
      rfl

theorem fields_joined {fs known : List (String × Json)}
    (reads : List.Forall₂ ReadsField texts fs) (filled : texts ≠ [])
    (distinct : ((known ++ fs).map Prod.fst).Nodup)
    (le : 2 * (joined (depth + 1) texts).length < fuel) :
    fields fuel known (joined (depth + 1) texts ++ closing depth '\x7d' tail) =
      .ok (known ++ fs, tail) := by
  induction reads generalizing fuel known with
  | nil => exact absurd rfl filled
  | @cons t f texts fs read reads ih =>
      obtain ⟨fuel, rfl⟩ := Nat.exists_eq_succ_of_ne_zero (Nat.ne_zero_of_lt le)
      have new : f.1 ∉ known.map Prod.fst := by
        rw [List.map_append, List.map_cons] at distinct
        exact fun old => List.disjoint_of_nodup_append distinct old List.mem_cons_self
      have longer : known ++ f :: fs = putField f.1 f.2 known ++ fs := by
        rw [putField_new new, List.append_assoc]
        rfl
      cases reads with
      | nil =>
          rw [joined_singleton] at le ⊢
          rw [longer, List.append_nil]
          exact read.fields_last (by omega) (stops_newline ..) (skipBlanks_closing rfl depth) known
      | cons next reads =>
          rw [joined_cons_cons, List.length_append, List.length_cons, List.length_append] at le
          rw [joined_cons_cons, List.append_assoc]
          refine (read.fields_more (by omega) (.inr ⟨_, .inl rfl⟩) rfl known).trans ?_
          rw [List.append_eq, List.append_assoc, skipBlanks_newline,
            ((next.solid.joined ..).append _).skipBlanks, longer]
          exact ih nofun (longer ▸ distinct) (by omega)

/-! ## Brackets -/

section Block

variable (depth : Nat) (left right : Char) (item : String) (items : List String)

theorem toList_block (tail : List Char) :
    (block depth (String.singleton left) (String.singleton right) (item :: items)).toList ++ tail =
      left :: ((newline (depth + 1)).toList ++
        (joined (depth + 1) ((item :: items).map String.toList) ++
          closing depth right tail)) := by
  rw [block, List.isEmpty_cons, if_neg Bool.false_ne_true, closing, joined]
  simp [String.toList_append, String.toList_intercalate]

theorem length_joined_lt :
    (joined (depth + 1) ((item :: items).map String.toList)).length + 2 ≤
      (block depth (String.singleton left) (String.singleton right)
        (item :: items)).toList.length := by
  have text := congrArg List.length (toList_block depth left right item items [])
  rw [List.append_nil] at text
  rw [text, closing]
  simp only [List.length_cons, List.length_append]
  omega

variable {depth left right item items}

/-- A block is read if what follows its bracket is read. -/
theorem reads_block (solid : left ∉ [' ', '\t', '\n', '\r', ']', '\x7d'])
    (read : ∀ fuel tail,
      2 * (joined (depth + 1) ((item :: items).map String.toList)).length < fuel →
        value (fuel + 1) (left :: ((newline (depth + 1)).toList ++
          (joined (depth + 1) ((item :: items).map String.toList) ++
            closing depth right tail))) = .ok (v, tail)) :
    Reads (block depth (String.singleton left) (String.singleton right)
      (item :: items)).toList v where
  solid := ⟨left, _, (List.append_nil _).symm.trans (toList_block depth left right item items []),
    solid⟩
  value fuel tail le _ := by
    have short := length_joined_lt depth left right item items
    rw [toList_block]
    exact read fuel tail (by omega)

end Block

theorem value_arr {vs : List Json} (solid : Solid s) (read : items fuel s = .ok (vs, tail))
    (depth : Nat) :
    value (fuel + 1) ('[' :: ((newline depth).toList ++ s)) = .ok (.arr vs, tail) := by
  rw [value, skipBlanks_newline, solid.skipBlanks]
  obtain ⟨c, more, rfl, ne⟩ := solid
  simp_all [bind, Except.bind]

theorem value_obj {fs : List (String × Json)} (solid : Solid s)
    (read : fields fuel [] s = .ok (fs, tail)) (depth : Nat) :
    value (fuel + 1) ('\x7b' :: ((newline depth).toList ++ s)) = .ok (.obj fs, tail) := by
  rw [value, skipBlanks_newline, solid.skipBlanks]
  obtain ⟨c, more, rfl, ne⟩ := solid
  simp_all [bind, Except.bind]

theorem reads_arr {strings : List String} {vs : List Json}
    (reads : List.Forall₂ Reads (strings.map String.toList) vs) (depth : Nat) :
    Reads (block depth "[" "]" strings).toList (.arr vs) := by
  cases strings with
  | nil =>
      cases reads
      have text : (block depth "[" "]" []).toList = ['[', ']'] := by simp [block]
      rw [text]
      exact ⟨⟨'[', [']'], rfl, by decide⟩, fun _ _ _ _ => rfl⟩
  | cons t strings =>
      have solid : Solid t.toList := by
        cases reads with
        | cons read _ => exact read.solid
      change Reads (block depth (String.singleton '[') (String.singleton ']') _).toList _
      refine reads_block (by decide) fun fuel tail le => ?_
      exact value_arr ((solid.joined ..).append _) (items_joined reads nofun le) _

theorem reads_obj {strings : List String} {fs : List (String × Json)}
    (reads : List.Forall₂ ReadsField (strings.map String.toList) fs)
    (distinct : (fs.map Prod.fst).Nodup) (depth : Nat) :
    Reads (block depth "\x7b" "\x7d" strings).toList (.obj fs) := by
  cases strings with
  | nil =>
      cases reads
      have text : (block depth "\x7b" "\x7d" []).toList = ['\x7b', '\x7d'] := by simp [block]
      rw [text]
      exact ⟨⟨'\x7b', ['\x7d'], rfl, by decide⟩, fun _ _ _ _ => rfl⟩
  | cons t strings =>
      have solid : Solid t.toList := by
        cases reads with
        | cons field _ => exact field.solid
      change Reads (block depth (String.singleton '\x7b') (String.singleton '\x7d') _).toList _
      refine reads_block (by decide) fun fuel tail le => ?_
      exact value_obj ((solid.joined ..).append _) (fields_joined reads nofun distinct le) _

/-! ## Documents -/

/-- A document of whole numbers that are short enough to be read, with plain names. -/
inductive Simple : Json → Prop
  | null : Simple .null
  | int {z : Int} : (Nat.toDigits 10 z.natAbs).length ≤ digitLimit → Simple (.int z)
  | arr {vs : List Json} : (∀ v ∈ vs, Simple v) → Simple (.arr vs)
  | obj {fs : List (String × Json)} :
      (∀ name ∈ fs.map Prod.fst, ∀ c ∈ name.toList, Unescaped c) →
        (fs.map Prod.fst).Nodup → (∀ f ∈ fs, Simple f.2) → Simple (.obj fs)

theorem prettyItems_eq (depth : Nat) (vs : List Json) :
    prettyItems depth vs = vs.map (pretty depth) := by
  induction vs with
  | nil => rfl
  | cons v vs ih => rw [prettyItems, ih, List.map_cons]

theorem prettyFields_eq (depth : Nat) (fs : List (String × Json)) :
    prettyFields depth fs = fs.map fun f => stringText f.1 ++ ": " ++ pretty depth f.2 := by
  induction fs with
  | nil => rfl
  | cons f fs ih => rw [prettyFields, ih, List.map_cons]

/-- The text of a document is read as the document. -/
theorem reads_pretty (simple : Simple v) (depth : Nat) : Reads (pretty depth v).toList v := by
  induction simple generalizing depth with
  | null => exact reads_null
  | int short => exact reads_int short
  | @arr vs _ ih =>
      rw [pretty, prettyItems_eq]
      apply reads_arr
      rw [List.map_map, List.forall₂_map_left_iff, List.forall₂_same]
      exact fun v hv => ih v hv (depth + 1)
  | @obj fs plain distinct _ ih =>
      rw [pretty, prettyFields_eq]
      refine reads_obj ?_ distinct depth
      rw [List.map_map, List.forall₂_map_left_iff, List.forall₂_same]
      refine fun f hf => ⟨plain f.1 (List.mem_map_of_mem hf), _, ?_, ih f hf (depth + 1)⟩
      rw [Function.comp_apply, String.toList_append, String.toList_append, List.append_assoc]
      rfl

theorem read_pretty (simple : Simple v) : read (v.pretty 0) = .ok v := by
  have reads := reads_pretty simple 0
  have value := reads.value (2 * (v.pretty 0).toList.length + 1) [] (by omega) (.inl rfl)
  rw [List.append_nil] at value
  rw [read]
  simp only [reads.solid.skipBlanks, value, bind, Except.bind]
  rfl

end GraphClustering.Json
