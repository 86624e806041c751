/-
  Gink.Proto.Pattern — patterns of the `re` module that are made of ordinary characters,
  `\s+` and `\s*`, with letter case ignored.

  A pattern is text.  Where that text reads as such a list of pieces, `fullmatch` does what
  the pieces say; whatever else a pattern may hold is left to the engine.
-/
import Gink.Proto.Errors

namespace Gink

namespace Pattern

/-! ## §1. Characters. -/

/-- What `\s` matches in a `str`, and what `str.isspace()` holds of. -/
def isSpace (c : Char) : Bool :=
  let n := c.toNat
  decide (9 ≤ n ∧ n ≤ 13 ∨ 28 ≤ n ∧ n ≤ 32 ∨ n = 0x85 ∨ n = 0xa0 ∨ n = 0x1680 ∨
    0x2000 ≤ n ∧ n ≤ 0x200a ∨ n = 0x2028 ∨ n = 0x2029 ∨ n = 0x202f ∨ n = 0x205f ∨ n = 0x3000)

/-- The characters that mean something else than themselves in a pattern. -/
def special : List Char :=
  ['.', '^', '$', '*', '+', '?', '\x7b', '\x7d', '[', ']', '\\', '|', '(', ')']

def isOrdinary (c : Char) : Bool := !special.contains c

/-- The text has no special characters. -/
def Plain (text : List Char) : Prop := ∀ c ∈ text, isOrdinary c = true

instance (text : List Char) : Decidable (Plain text) :=
  List.decidableBAll (fun c => isOrdinary c = true) text

/-! ## §2. Pieces. -/

inductive Piece where
  | letter (c : Char)
  /-- `\s+` -/
  | spaces
  /-- `\s*` -/
  | anySpaces
  deriving DecidableEq, Repr

def Piece.text : Piece → List Char
  | .letter c => [c]
  | .spaces => ['\\', 's', '+']
  | .anySpaces => ['\\', 's', '*']

/-- The pieces that the text of a pattern is read as. -/
def readPieces : List Char → Option (List Piece)
  | [] => some []
  | c :: rest =>
      if isOrdinary c then (readPieces rest).map (.letter c :: ·)
      else match c, rest with
        | '\\', 's' :: '+' :: rest => (readPieces rest).map (.spaces :: ·)
        | '\\', 's' :: '*' :: rest => (readPieces rest).map (.anySpaces :: ·)
        | _, _ => none

/-- The letters of a piece are ordinary characters. -/
def Piece.IsOrdinary : Piece → Prop
  | .letter c => isOrdinary c = true
  | _ => True

/-- **The text of pieces** is read as these pieces. -/
theorem readPieces_text {pieces : List Piece} (h : ∀ p ∈ pieces, p.IsOrdinary) :
    readPieces (pieces.flatMap Piece.text) = some pieces := by
  induction pieces with
  | nil => rfl
  | cons p rest ih =>
      have hrest := ih fun q hq => h q (List.mem_cons_of_mem _ hq)
      rw [List.flatMap_cons]
      cases p with
      | letter c =>
          have hc : isOrdinary c = true := h _ List.mem_cons_self
          show readPieces (c :: rest.flatMap Piece.text) = _
          unfold readPieces
          rw [if_pos hc, hrest]
          rfl
      | spaces =>
          show (readPieces (rest.flatMap Piece.text)).map (.spaces :: ·) = _
          rw [hrest]
          rfl
      | anySpaces =>
          show (readPieces (rest.flatMap Piece.text)).map (.anySpaces :: ·) = _
          rw [hrest]
          rfl

/-! ## §3. Matching. -/

section
variable (sameLetter : Char → Char → Bool)

/-- What a list of pieces matches. -/
def Matches : List Piece → List Char → Prop
  | [], s => s = []
  | .letter c :: ps, s => ∃ x rest, s = x :: rest ∧ sameLetter c x = true ∧ Matches ps rest
  | .spaces :: ps, s => ∃ w rest, s = w ++ rest ∧ w ≠ [] ∧ (∀ x ∈ w, isSpace x = true) ∧
      Matches ps rest
  | .anySpaces :: ps, s => ∃ w rest, s = w ++ rest ∧ (∀ x ∈ w, isSpace x = true) ∧
      Matches ps rest

variable {sameLetter} {c : Char} {ps : List Piece} {s : List Char}

theorem matches_nil : Matches sameLetter [] s ↔ s = [] := Iff.rfl

theorem matches_letter : Matches sameLetter (.letter c :: ps) s ↔
    ∃ x rest, s = x :: rest ∧ sameLetter c x = true ∧ Matches sameLetter ps rest := Iff.rfl

theorem matches_spaces : Matches sameLetter (.spaces :: ps) s ↔
    ∃ w rest, s = w ++ rest ∧ w ≠ [] ∧ (∀ x ∈ w, isSpace x = true) ∧
      Matches sameLetter ps rest := Iff.rfl

theorem matches_anySpaces : Matches sameLetter (.anySpaces :: ps) s ↔
    ∃ w rest, s = w ++ rest ∧ (∀ x ∈ w, isSpace x = true) ∧ Matches sameLetter ps rest := Iff.rfl

variable (sameLetter)

/-- Whether white space can be taken from the front so that the rest is accepted. -/
def afterSpaces (accepts : List Char → Bool) : List Char → Bool
  | [] => accepts []
  | x :: rest => accepts (x :: rest) || isSpace x && afterSpaces accepts rest

/-- The pieces tried in their order. -/
def run : List Piece → List Char → Bool
  | [], s => s.isEmpty
  | .letter c :: ps, s =>
      match s with
      | [] => false
      | x :: rest => sameLetter c x && run ps rest
  | .spaces :: ps, s =>
      match s with
      | [] => false
      | x :: rest => isSpace x && afterSpaces (run ps) rest
  | .anySpaces :: ps, s => afterSpaces (run ps) s

end

theorem afterSpaces_iff {accepts : List Char → Bool} {s : List Char} :
    afterSpaces accepts s = true ↔ ∃ w rest, s = w ++ rest ∧ (∀ x ∈ w, isSpace x = true) ∧
      accepts rest = true := by
  induction s with
  | nil =>
      constructor
      · exact fun h => ⟨[], [], rfl, fun _ hx => absurd hx List.not_mem_nil, h⟩
      · intro h
        obtain ⟨w, rest, hs, -, haccepts⟩ := h
        rw [(List.append_eq_nil_iff.mp hs.symm).2] at haccepts
        exact haccepts
  | cons x s ih =>
      unfold afterSpaces
      rw [Bool.or_eq_true, Bool.and_eq_true, ih]
      constructor
      · intro h
        rcases h with haccepts | ⟨hx, w, rest, rfl, hw, haccepts⟩
        · exact ⟨[], x :: s, rfl, fun _ hx => absurd hx List.not_mem_nil, haccepts⟩
        · exact ⟨x :: w, rest, rfl, List.forall_mem_cons.mpr ⟨hx, hw⟩, haccepts⟩
      · intro h
        obtain ⟨w, rest, hs, hw, haccepts⟩ := h
        cases w with
        | nil => exact Or.inl (hs ▸ haccepts)
        | cons y w =>
            rw [List.cons_append, List.cons.injEq] at hs
            obtain ⟨rfl, rfl⟩ := hs
            obtain ⟨hy, hw⟩ := List.forall_mem_cons.mp hw
            exact Or.inr ⟨hy, w, rest, rfl, hw, haccepts⟩

/-- **Trying the pieces** finds whether they match. -/
theorem run_iff {sameLetter : Char → Char → Bool} {pieces : List Piece} {s : List Char} :
    run sameLetter pieces s = true ↔ Matches sameLetter pieces s := by
  induction pieces generalizing s with
  | nil => exact List.isEmpty_iff
  | cons p ps ih =>
      cases p with
      | letter c =>
          cases s with
          | nil => simp [run, Matches]
          | cons x rest =>
              unfold run
              rw [matches_letter, Bool.and_eq_true, ih]
              constructor
              · exact fun h => ⟨x, rest, rfl, h.1, h.2⟩
              · intro h
                obtain ⟨y, rest', hs, hsame, hrest⟩ := h
                rw [List.cons.injEq] at hs
                obtain ⟨rfl, rfl⟩ := hs
                exact ⟨hsame, hrest⟩
      | spaces =>
          cases s with
          | nil => simp +contextual [run, Matches]
          | cons x rest =>
              unfold run
              rw [matches_spaces, Bool.and_eq_true, afterSpaces_iff]
              constructor
              · intro h
                obtain ⟨hx, w, rest', rfl, hw, hrest⟩ := h
                exact ⟨x :: w, rest', rfl, List.cons_ne_nil _ _, List.forall_mem_cons.mpr ⟨hx, hw⟩,
                  ih.mp hrest⟩
              · intro h
                obtain ⟨w, rest', hs, hne, hw, hrest⟩ := h
                cases w with
                | nil => exact absurd rfl hne
                | cons y w =>
                    rw [List.cons_append, List.cons.injEq] at hs
                    obtain ⟨rfl, rfl⟩ := hs
                    obtain ⟨hy, hw⟩ := List.forall_mem_cons.mp hw
                    exact ⟨hy, w, rest', rfl, hw, ih.mpr hrest⟩
      | anySpaces =>
          unfold run
          rw [matches_anySpaces, afterSpaces_iff]
          simp only [ih]

/-- Letters one after the other. -/
theorem matches_letters {sameLetter : Char → Char → Bool} {letters s : List Char}
    {pieces : List Piece} : Matches sameLetter (letters.map .letter ++ pieces) s ↔
      ∃ w rest, s = w ++ rest ∧ List.Forall₂ (fun c x => sameLetter c x = true) letters w ∧
        Matches sameLetter pieces rest := by
  induction letters generalizing s with
  | nil =>
      constructor
      · exact fun h => ⟨[], s, rfl, .nil, h⟩
      · intro h
        obtain ⟨w, rest, rfl, hw, hrest⟩ := h
        cases hw
        exact hrest
  | cons c letters ih =>
      rw [List.map_cons, List.cons_append, matches_letter]
      constructor
      · intro h
        obtain ⟨x, rest, rfl, hx, hrest⟩ := h
        obtain ⟨w, rest', rfl, hw, hmatches⟩ := ih.mp hrest
        exact ⟨x :: w, rest', rfl, .cons hx hw, hmatches⟩
      · intro h
        obtain ⟨w, rest, rfl, hw, hmatches⟩ := h
        cases hw with
        | @cons _ x _ w hx hw => exact ⟨x, w ++ rest, rfl, hx, ih.mpr ⟨w, rest, rfl, hw, hmatches⟩⟩

/-! ## §4. The engine. -/

/-- What is left open of the `re` module. -/
structure Engine where
  /-- whether a letter of a pattern matches a character, letter case aside -/
  sameLetter : Char → Char → Bool
  /-- `fullmatch` for the patterns that are not read as pieces -/
  other : List Char → List Char → Except Error Bool

/-- `fullmatch(pattern, string, IGNORECASE)`: whether there is a match. -/
def fullmatch (re : Engine) (pattern string : List Char) : Except Error Bool :=
  match readPieces pattern with
  | some pieces => .ok (run re.sameLetter pieces string)
  | none => re.other pattern string

theorem fullmatch_pieces (re : Engine) {pieces : List Piece} (h : ∀ p ∈ pieces, p.IsOrdinary)
    (string : List Char) : fullmatch re (pieces.flatMap Piece.text) string =
      .ok (run re.sameLetter pieces string) := by
  unfold fullmatch
  rw [readPieces_text h]

end Pattern

end Gink
