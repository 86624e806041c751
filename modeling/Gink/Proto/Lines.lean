/-
  Gink.Proto.Lines — lines of text: in bytes, where a blank line is looked for, and in
  characters, as `str.splitlines` tells them apart.
-/
import Gink.Proto.Keys

namespace Gink

namespace Lines

/-! ## §1. UTF-8. -/

/-- `text.encode('utf-8')`. -/
def encode (text : List Char) : Bytes := utf8 (String.ofList text)

/-- `data.decode('utf-8')`. -/
def decode (data : Bytes) : Except Error (List Char) :=
  orRaise (.valueError "'utf-8' codec can't decode") ((fromUtf8 data).map String.toList)

theorem decode_encode (text : List Char) : decode (encode text) = .ok text := by
  unfold decode encode
  rw [fromUtf8_utf8]
  show Except.ok (String.ofList text).toList = _
  rw [String.toList_ofList]

theorem encode_eq (text : List Char) :
    encode text = (text.flatMap String.utf8EncodeChar).map (·.toFin) := by
  unfold encode utf8
  show (String.ofList text).toByteArray.data.toList.map _ = _
  rw [String.toByteArray_ofList]
  unfold List.utf8Encode
  rw [List.data_toByteArray]

theorem encode_append (s t : List Char) : encode (s ++ t) = encode s ++ encode t := by
  rw [encode_eq, encode_eq, encode_eq, List.flatMap_append, List.map_append]

/-- The bytes of a character outside of ASCII are. -/
theorem utf8EncodeChar_ascii {c : Char} {b : UInt8} (h : b ∈ String.utf8EncodeChar c)
    (hb : b.toNat < 128) : c.toNat = b.toNat := by
  unfold String.utf8EncodeChar at h
  simp only at h
  split_ifs at h with h1 h2 h3
  · rw [List.mem_singleton] at h
    rw [h]
    show c.val.toNat = (UInt8.ofNat c.val.toNat).toNat
    rw [UInt8.toNat_ofNat']
    omega
  all_goals
    simp only [List.mem_cons, List.not_mem_nil, or_false] at h
    have hlarge : 128 ≤ b.toNat := by
      rcases h with rfl | rfl | rfl | rfl <;> simp [UInt8.toNat_ofNat'] <;> omega
    omega

/-- **A byte of ASCII** in the encoding is a character of the text. -/
theorem exists_of_mem_encode {text : List Char} {b : Byte} (h : b ∈ encode text)
    (hb : b.val < 128) : ∃ c ∈ text, c.toNat = b.val := by
  rw [encode_eq, List.mem_map] at h
  obtain ⟨x, hx, rfl⟩ := h
  obtain ⟨c, hc, hx⟩ := List.mem_flatMap.mp hx
  exact ⟨c, hc, utf8EncodeChar_ascii hx hb⟩

theorem encode_ne_nil {text : List Char} (h : text ≠ []) : encode text ≠ [] := by
  obtain ⟨c, rest, rfl⟩ := List.exists_cons_of_ne_nil h
  rw [encode_eq, List.flatMap_cons, List.map_append]
  exact List.append_ne_nil_of_left_ne_nil (by simp) _

/-! ## §2. Blank lines in bytes. -/

/-- What follows `\r?\n`. -/
def afterNewline : Bytes → Option Bytes
  | 10 :: rest => some rest
  | 13 :: 10 :: rest => some rest
  | _ => none

/-- What follows `\r?\n\r?\n`. -/
def afterBlank (data : Bytes) : Option Bytes := afterNewline data >>= afterNewline

/-- `fullmatch(rb"(.+)\r?\n\r?\n(.*)", data, DOTALL)`: the first group is as long as it
can be. -/
def splitHeader : Bytes → Option (Bytes × Bytes)
  | [] => none
  | b :: rest =>
      match splitHeader rest with
      | some (header, body) => some (b :: header, body)
      | none => (afterBlank rest).map fun body => ([b], body)

/-- A blank line follows somewhere. -/
def hasBlank : Bytes → Bool
  | [] => false
  | b :: rest => (afterBlank (b :: rest)).isSome || hasBlank rest

section
variable {s t data rest body : Bytes} {b : Byte}

theorem afterNewline_append (h : afterNewline s = some rest) (t : Bytes) :
    afterNewline (s ++ t) = some (rest ++ t) := by
  unfold afterNewline at h
  split at h
  · rw [← Option.some.inj h]
    rfl
  · rw [← Option.some.inj h]
    rfl
  · cases h

theorem afterBlank_append (h : afterBlank s = some rest) (t : Bytes) :
    afterBlank (s ++ t) = some (rest ++ t) := by
  unfold afterBlank at h ⊢
  obtain ⟨mid, hmid, h⟩ := Option.bind_eq_some_iff.mp h
  show (afterNewline (s ++ t)).bind afterNewline = _
  rw [afterNewline_append hmid]
  exact afterNewline_append h t

/-- What has a blank line still has it when more arrives. -/
theorem hasBlank_append (h : hasBlank s = true) (t : Bytes) : hasBlank (s ++ t) = true := by
  induction s with
  | nil => cases h
  | cons b rest ih =>
      unfold hasBlank at h
      rw [List.cons_append]
      unfold hasBlank
      rw [Bool.or_eq_true] at h ⊢
      rcases h with hhere | hlater
      · left
        obtain ⟨body, hbody⟩ := Option.isSome_iff_exists.mp hhere
        have hmore := afterBlank_append hbody t
        rw [List.cons_append] at hmore
        rw [hmore]
        rfl
      · exact Or.inr (ih hlater)

theorem afterNewline_of_ne (h10 : b ≠ 10) (h13 : b ≠ 13) : afterNewline (b :: rest) = none := by
  unfold afterNewline
  split
  · next heq => exact absurd (List.cons.inj heq).1 h10
  · next heq => exact absurd (List.cons.inj heq).1 h13
  · rfl

/-- A line of text does not start a blank line. -/
theorem hasBlank_line (hs : ∀ b ∈ s, b ≠ 10 ∧ b ≠ 13) : hasBlank (s ++ t) = hasBlank t := by
  induction s with
  | nil => rfl
  | cons b rest ih =>
      obtain ⟨h10, h13⟩ := hs b List.mem_cons_self
      have hhere : afterBlank (b :: (rest ++ t)) = none := by
        unfold afterBlank
        rw [afterNewline_of_ne h10 h13]
        rfl
      show ((afterBlank (b :: (rest ++ t))).isSome || hasBlank (rest ++ t)) = _
      rw [hhere, ih fun x hx => hs x (List.mem_cons_of_mem _ hx)]
      rfl

/-- **Nothing is split** where no blank line follows the first byte. -/
theorem splitHeader_eq_none : splitHeader (b :: rest) = none ↔ hasBlank rest = false := by
  induction rest generalizing b with
  | nil => exact iff_of_true rfl rfl
  | cons c rest ih =>
      unfold splitHeader hasBlank
      rw [Bool.or_eq_false_iff, ← ih]
      cases hsplit : splitHeader (c :: rest) with
      | some found => simp
      | none => simp

/-- **The split is at the last blank line.** -/
theorem splitHeader_last (hs : s ≠ []) (hblank : afterBlank (b :: t) = some body)
    (hlast : hasBlank t = false) : splitHeader (s ++ b :: t) = some (s, body) := by
  induction s with
  | nil => exact absurd rfl hs
  | cons c rest ih =>
      rw [List.cons_append]
      unfold splitHeader
      cases rest with
      | nil =>
          rw [List.nil_append, splitHeader_eq_none.mpr hlast, hblank]
          rfl
      | cons d rest =>
          rw [ih (List.cons_ne_nil _ _)]

theorem afterNewline_length (h : afterNewline s = some rest) : rest.length < s.length := by
  unfold afterNewline at h
  split at h
  · rw [← Option.some.inj h]
    simp
  · rw [← Option.some.inj h]
    simp only [List.length_cons]
    omega
  · cases h

theorem afterBlank_length (h : afterBlank s = some rest) : rest.length + 2 ≤ s.length := by
  obtain ⟨mid, hmid, h⟩ := Option.bind_eq_some_iff.mp h
  have h1 := afterNewline_length hmid
  have h2 := afterNewline_length h
  omega

/-- With a later blank line less is left of the body. -/
theorem splitHeader_length (h : hasBlank t = true) (b : Byte) (s : Bytes) :
    ∃ header body, splitHeader (s ++ b :: t) = some (header, body) ∧ body.length + 2 ≤ t.length := by
  have hlate : ∃ header body, splitHeader (b :: t) = some (header, body) ∧
      body.length + 2 ≤ t.length := by
    induction t generalizing b with
    | nil => cases h
    | cons c rest ih =>
        unfold splitHeader
        by_cases hrest : hasBlank rest = true
        · obtain ⟨header, body, hsplit, hlen⟩ := ih hrest c
          rw [hsplit]
          exact ⟨_, body, rfl, by simp; omega⟩
        · rw [splitHeader_eq_none.mpr (by simpa using hrest)]
          unfold hasBlank at h
          rw [Bool.or_eq_true, or_iff_left hrest] at h
          obtain ⟨body, hbody⟩ := Option.isSome_iff_exists.mp h
          rw [hbody]
          exact ⟨_, body, rfl, afterBlank_length hbody⟩
  induction s with
  | nil => exact hlate
  | cons c rest ih =>
      obtain ⟨header, body, hsplit, hlen⟩ := ih
      refine ⟨c :: header, body, ?_, hlen⟩
      rw [List.cons_append]
      unfold splitHeader
      rw [hsplit]

end

/-! ## §3. Lines of characters. -/

/-- What `str.splitlines` ends a line at. -/
def isLineBreak (c : Char) : Bool :=
  let n := c.toNat
  decide (10 ≤ n ∧ n ≤ 13 ∨ 28 ≤ n ∧ n ≤ 30 ∨ n = 0x85 ∨ n = 0x2028 ∨ n = 0x2029)

/-- The text is one line. -/
def OneLine (line : List Char) : Prop := ∀ c ∈ line, isLineBreak c = false

/-- `text.splitlines()`. -/
def splitLines : List Char → List (List Char)
  | [] => []
  | '\r' :: '\n' :: rest => [] :: splitLines rest
  | c :: rest =>
      if isLineBreak c then [] :: splitLines rest
      else match splitLines rest with
        | [] => [[c]]
        | line :: lines => (c :: line) :: lines

/-- The two ends of a line that a header may have. -/
inductive LineEnd where
  | crlf
  | lf
  deriving DecidableEq, Repr

/-- What it has before the line feed. -/
def LineEnd.return : LineEnd → List Char
  | .crlf => ['\r']
  | .lf => []

def LineEnd.text (e : LineEnd) : List Char := e.return ++ ['\n']

theorem splitLines_cons {c : Char} {rest : List Char} (hc : isLineBreak c = false) :
    splitLines (c :: rest) = match splitLines rest with
      | [] => [[c]]
      | line :: lines => (c :: line) :: lines := by
  rw [splitLines.eq_def]
  split
  · next heq => cases heq
  · next heq =>
      rw [(List.cons.inj heq).1] at hc
      exact absurd hc (by decide)
  · next heq =>
      obtain ⟨rfl, rfl⟩ := List.cons.inj heq
      rw [if_neg (by simp [hc])]

/-- A line before what starts with its end. -/
theorem splitLines_line {line rest : List Char} {lines : List (List Char)} (hline : OneLine line)
    (hrest : splitLines rest = [] :: lines) : splitLines (line ++ rest) = line :: lines := by
  induction line with
  | nil => exact hrest
  | cons c line ih =>
      rw [List.cons_append, splitLines_cons (hline c List.mem_cons_self),
        ih fun x hx => hline x (List.mem_cons_of_mem _ hx)]

theorem splitLines_end (e : LineEnd) (rest : List Char) :
    splitLines (e.text ++ rest) = [] :: splitLines rest := by
  cases e <;> rfl

theorem splitLines_return {e : LineEnd} {line : List Char} (hline : OneLine line)
    (hne : line ≠ []) : splitLines (line ++ e.return) = [line] := by
  cases e with
  | crlf => exact splitLines_line hline rfl
  | lf =>
      show splitLines (line ++ []) = _
      rw [List.append_nil]
      induction line with
      | nil => exact absurd rfl hne
      | cons c line ih =>
          rw [splitLines_cons (hline c List.mem_cons_self)]
          cases line with
          | nil => rfl
          | cons d line =>
              rw [ih (fun x hx => hline x (List.mem_cons_of_mem _ hx)) (List.cons_ne_nil _ _)]

/-- Lines, each with its end, the last but for the line feed. -/
def joined (e : LineEnd) : List (List Char) → List Char
  | [] => []
  | [line] => line ++ e.return
  | line :: lines => line ++ e.text ++ joined e lines

/-- **Lines that are joined** are told apart again. -/
theorem splitLines_joined (e : LineEnd) {lines : List (List Char)}
    (hlines : ∀ line ∈ lines, OneLine line ∧ line ≠ []) : splitLines (joined e lines) = lines := by
  induction lines with
  | nil => rfl
  | cons line lines ih =>
      obtain ⟨hline, hne⟩ := hlines line List.mem_cons_self
      cases lines with
      | nil => exact splitLines_return hline hne
      | cons next lines =>
          have hrest := ih fun x hx => hlines x (List.mem_cons_of_mem _ hx)
          show splitLines (line ++ e.text ++ joined e (next :: lines)) = _
          rw [List.append_assoc]
          refine splitLines_line hline ?_
          rw [splitLines_end, hrest]

/-! ## §4. Blank lines behind lines. -/

theorem encode_line {line : List Char} (h : OneLine line) :
    ∀ b ∈ encode line, b ≠ 10 ∧ b ≠ 13 := by
  intro b hb
  constructor
  · rintro rfl
    obtain ⟨c, hc, hn⟩ := exists_of_mem_encode hb (by decide)
    have hbreak := h c hc
    unfold isLineBreak at hbreak
    simp [hn] at hbreak
  · rintro rfl
    obtain ⟨c, hc, hn⟩ := exists_of_mem_encode hb (by decide)
    have hbreak := h c hc
    unfold isLineBreak at hbreak
    simp [hn] at hbreak

/-- A blank line is not started by the end of a line, when none starts behind it. -/
theorem hasBlank_end (e : LineEnd) {t : Bytes} : hasBlank (encode e.text ++ t) =
    ((afterNewline t).isSome || hasBlank t) := by
  cases e with
  | lf => rfl
  | crlf =>
      show ((afterNewline t).isSome || ((afterNewline t).isSome || hasBlank t)) = _
      cases (afterNewline t).isSome <;> rfl

theorem afterNewline_line {line : List Char} (h : OneLine line) (hne : line ≠ []) (t : Bytes) :
    afterNewline (encode line ++ t) = none := by
  obtain ⟨b, rest, hb⟩ := List.exists_cons_of_ne_nil (encode_ne_nil hne)
  have hfirst := encode_line h b (hb ▸ List.mem_cons_self)
  rw [hb]
  exact afterNewline_of_ne hfirst.1 hfirst.2

/-- **Lines have no blank line** among them, nor do they start with the end of one. -/
theorem hasBlank_joined (e : LineEnd) {lines : List (List Char)}
    (hlines : ∀ line ∈ lines, OneLine line ∧ line ≠ []) (t : Bytes) (hne : lines ≠ []) :
    hasBlank (encode (joined e lines) ++ t) = hasBlank (encode e.return ++ t) ∧
      afterNewline (encode (joined e lines) ++ t) = none := by
  induction lines with
  | nil => exact absurd rfl hne
  | cons line lines ih =>
      obtain ⟨hline, hnonempty⟩ := hlines line List.mem_cons_self
      cases lines with
      | nil =>
          show hasBlank (encode (line ++ e.return) ++ t) = _ ∧
            afterNewline (encode (line ++ e.return) ++ t) = none
          rw [encode_append, List.append_assoc]
          exact ⟨hasBlank_line (encode_line hline), afterNewline_line hline hnonempty _⟩
      | cons next lines =>
          obtain ⟨hblank, hstart⟩ := ih (fun x hx => hlines x (List.mem_cons_of_mem _ hx))
            (List.cons_ne_nil _ _)
          show hasBlank (encode (line ++ e.text ++ joined e (next :: lines)) ++ t) = _ ∧
            afterNewline (encode (line ++ e.text ++ joined e (next :: lines)) ++ t) = none
          rw [encode_append, encode_append, List.append_assoc, List.append_assoc]
          refine ⟨?_, afterNewline_line hline hnonempty _⟩
          rw [hasBlank_line (encode_line hline), hasBlank_end, hstart, hblank]
          rfl

end Lines

end Gink
