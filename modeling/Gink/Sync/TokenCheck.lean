/-
  Gink.Sync.TokenCheck — the token that a client shows when it connects (utilities.py,
  make_auth_func and decode_from_hex).

  The token travels as one of the protocols that a client offers, written in hexadecimal.
  The first of them that is accepted ends the check; one before it that is not hexadecimal,
  or not UTF-8, ends it with an exception.
-/
import Gink.Proto.Keys
import Gink.Proto.MuidText
import Gink.Proto.Pattern
import Gink.Sync.Connection

namespace Gink

namespace TokenCheck

open Pattern

/-! ## §1. Decoding. -/

/-- The white space that `bytes.fromhex` skips. -/
def isAsciiSpace (c : Char) : Bool := decide (9 ≤ c.toNat ∧ c.toNat ≤ 13 ∨ c.toNat = 32)

def byteOf (high low : Nat) : Byte := Fin.ofNat 256 (16 * high + low)

def notHex : Error := .valueError "non-hexadecimal number found in fromhex() arg"

/-- `bytes.fromhex(string)`. -/
def fromHex : List Char → Except Error Bytes
  | [] => .ok []
  | c :: rest =>
      if isAsciiSpace c then fromHex rest
      else match hexValue? c, rest with
        | some high, d :: rest =>
            match hexValue? d with
            | some low => (fromHex rest).map (byteOf high low :: ·)
            | none => .error notHex
        | _, _ => .error notHex

/-- `decode_from_hex(hex_str)`. -/
def decodeFromHex (hexStr : List Char) : Except Error (List Char) := do
  -- cut off the '0x'
  let bytesObj ← fromHex (hexStr.drop 2)
  let string ← orRaise (.valueError "'utf-8' codec can't decode") (fromUtf8 bytesObj)
  return string.toList

/-- What the digits of a text spell, white space between the pairs left aside. -/
inductive HexOf : List Char → Bytes → Prop
  | done : HexOf [] []
  | space {c : Char} {s : List Char} {b : Bytes} : isAsciiSpace c = true → HexOf s b →
      HexOf (c :: s) b
  | pair {c d : Char} {high low : Nat} {s : List Char} {b : Bytes} : isAsciiSpace c = false →
      hexValue? c = some high → hexValue? d = some low → HexOf s b →
      HexOf (c :: d :: s) (byteOf high low :: b)

theorem HexOf.fromHex {s : List Char} {b : Bytes} (h : HexOf s b) :
    TokenCheck.fromHex s = .ok b := by
  induction h with
  | done => rfl
  | space hspace _ ih =>
      unfold TokenCheck.fromHex
      rw [if_pos hspace, ih]
  | @pair c d high low s b hspace hhigh hlow _ ih =>
      unfold TokenCheck.fromHex
      rw [if_neg (by simp [hspace]), hhigh]
      show (match hexValue? d with
        | some low => (TokenCheck.fromHex s).map (byteOf high low :: ·)
        | none => .error notHex) = _
      rw [hlow, ih]
      rfl

theorem hexOf_of_fromHex {s : List Char} : ∀ {b : Bytes}, fromHex s = .ok b → HexOf s b := by
  induction s using fromHex.induct with
  | case1 =>
      intro b h
      rw [← Except.ok.inj h]
      exact .done
  | case2 c rest hspace ih =>
      intro b h
      unfold fromHex at h
      rw [if_pos hspace] at h
      exact .space hspace (ih h)
  | case3 c hspace high d rest hhigh low hlow ih =>
      intro b h
      unfold fromHex at h
      rw [if_neg hspace] at h
      simp only [hhigh, hlow] at h
      cases hrest : fromHex rest with
      | error e =>
          rw [hrest] at h
          cases h
      | ok b' =>
          rw [hrest] at h
          rw [← Except.ok.inj h]
          exact .pair (by simpa using hspace) hhigh hlow (ih hrest)
  | case4 c hspace high d rest hhigh hlow =>
      intro b h
      unfold fromHex at h
      rw [if_neg hspace] at h
      simp [hhigh, hlow] at h
  | case5 c rest hspace hneither =>
      intro b h
      unfold fromHex at h
      rw [if_neg hspace] at h
      split at h
      · next high d rest' hhigh => exact (hneither high d rest' hhigh rfl).elim
      · cases h

/-- **A text is read** as the bytes that its digits spell. -/
theorem fromHex_eq_ok {s : List Char} {b : Bytes} : fromHex s = .ok b ↔ HexOf s b :=
  ⟨hexOf_of_fromHex, HexOf.fromHex⟩

theorem fromUtf8_eq_some {b : Bytes} {s : String} : fromUtf8 b = some s ↔ utf8 s = b := by
  constructor
  · intro h
    unfold fromUtf8 String.fromUTF8? at h
    rw [Option.dite_none_right_eq_some] at h
    obtain ⟨hvalid, h⟩ := h
    rw [← Option.some.inj h]
    show (b.map fun x => UInt8.ofFin x).map (·.toFin) = b
    rw [List.map_map]
    exact List.map_id' b
  · intro h
    rw [← h]
    exact fromUtf8_utf8 s

/-- **A protocol is decoded** to the text whose bytes it spells. -/
theorem decodeFromHex_eq_ok {p text : List Char} : decodeFromHex p = .ok text ↔
    ∃ b s, HexOf (p.drop 2) b ∧ utf8 s = b ∧ s.toList = text := by
  unfold decodeFromHex
  constructor
  · intro h
    obtain ⟨b, hb, h⟩ := bind_eq_ok.mp h
    obtain ⟨s, hs, h⟩ := bind_eq_ok.mp h
    cases hdecoded : fromUtf8 b with
    | none =>
        rw [hdecoded] at hs
        cases hs
    | some s' =>
        rw [hdecoded] at hs
        obtain rfl := Except.ok.inj hs
        exact ⟨b, s', fromHex_eq_ok.mp hb, fromUtf8_eq_some.mp hdecoded, pure_eq_ok.mp h⟩
  · intro h
    obtain ⟨b, s, hhex, hutf8, rfl⟩ := h
    rw [fromHex_eq_ok.mpr hhex]
    show (orRaise _ (fromUtf8 b) >>= fun string => pure string.toList) = _
    rw [fromUtf8_eq_some.mpr hutf8]
    rfl

/-! ## §2. The check. -/

/-- `protocol.lower().startswith("0x")`; no other letter has these for its lower case. -/
def startsWith0x : List Char → Bool
  | '0' :: c :: _ => decide (c = 'x' ∨ c = 'X')
  | _ => false

/-- `split(r",\s*", protocols_string)`. -/
def splitProtocols (protocolsString : List Char) : List (List Char) :=
  match protocolsString.splitOn ',' with
  | [] => []
  | first :: rest => first :: rest.map fun p => p.dropWhile isSpace

/-- "token". -/
def tokenWord : List Char := ['t', 'o', 'k', 'e', 'n']

/-- `fr"token\s+{token}\s*"`. -/
def tokenPattern (token : List Char) : List Char :=
  tokenWord ++ ['\\', 's', '+'] ++ token ++ ['\\', 's', '*']

/-- The loop of the function that `make_auth_func(token)` makes. -/
def checkProtocols (re : Engine) (token : List Char) : List (List Char) → Except Error Nat
  | [] => .ok authNone
  | protocol :: rest =>
      if startsWith0x protocol then do
        let decoded ← decodeFromHex protocol
        let found ← fullmatch re (tokenPattern token) decoded
        if found then .ok authFull else checkProtocols re token rest
      else checkProtocols re token rest

/-- `make_auth_func(token)`, applied to a request with that header, if it has any. -/
def authFunc (re : Engine) (token : List Char) (header : Option (List Char)) : Except Error Nat :=
  checkProtocols re token (splitProtocols (header.getD []))

/-! ## §3. What it is for. -/

variable {re : Engine} {token : List Char} {header : Option (List Char)}

/-- The word token, white space, the token, and what white space follows; letter case aside. -/
def ShowsToken (re : Engine) (token text : List Char) : Prop :=
  ∃ word gap shown trail, text = word ++ gap ++ shown ++ trail ∧
    List.Forall₂ (fun c x => re.sameLetter c x = true) tokenWord word ∧
    gap ≠ [] ∧ (∀ x ∈ gap, isSpace x = true) ∧
    List.Forall₂ (fun c x => re.sameLetter c x = true) token shown ∧
    ∀ x ∈ trail, isSpace x = true

/-- The text that a protocol spells in hexadecimal. -/
def Spells (protocol text : List Char) : Prop :=
  startsWith0x protocol = true ∧ ∃ b s, HexOf (protocol.drop 2) b ∧ utf8 s = b ∧ s.toList = text

/-- Some protocol of the header spells the token. -/
def Presented (re : Engine) (token : List Char) (header : Option (List Char)) : Prop :=
  ∃ p ∈ splitProtocols (header.getD []), ∃ text, Spells p text ∧ ShowsToken re token text

/-- The function tells whether the token is presented. -/
def ChecksToken (re : Engine) (token : List Char) (header : Option (List Char)) : Prop :=
  (Presented re token header → authFunc re token header = .ok authFull) ∧
    (¬ Presented re token header → authFunc re token header = .ok authNone)

/-! ## §4. The loop. -/

/-- What becomes of one protocol that starts with 0x. -/
def reading (re : Engine) (token protocol : List Char) : Except Error Bool :=
  decodeFromHex protocol >>= fullmatch re (tokenPattern token)

def accepts (re : Engine) (token protocol : List Char) : Bool :=
  match reading re token protocol with
  | .ok found => found
  | .error _ => false

/-- The protocols that start with 0x, up to the first that is accepted. -/
def ahead (re : Engine) (token : List Char) (header : Option (List Char)) : List (List Char) :=
  ((splitProtocols (header.getD [])).filter startsWith0x).takeWhile fun p => !accepts re token p

/-- Some protocol that starts with 0x is accepted. -/
def Accepted (re : Engine) (token : List Char) (header : Option (List Char)) : Prop :=
  ∃ p ∈ splitProtocols (header.getD []), startsWith0x p = true ∧ accepts re token p = true

theorem checkProtocols_cons (p : List Char) (rest : List (List Char)) :
    checkProtocols re token (p :: rest) =
      if startsWith0x p then
        reading re token p >>= fun found =>
          if found then .ok authFull else checkProtocols re token rest
      else checkProtocols re token rest := by
  conv_lhs => unfold checkProtocols
  unfold reading
  rw [bind_assoc]

theorem checkProtocols_filter (ps : List (List Char)) :
    checkProtocols re token (ps.filter startsWith0x) = checkProtocols re token ps := by
  induction ps with
  | nil => rfl
  | cons p rest ih =>
      by_cases hp : startsWith0x p = true
      · rw [List.filter_cons_of_pos hp, checkProtocols_cons, checkProtocols_cons, ih]
      · rw [List.filter_cons_of_neg hp, ih, checkProtocols_cons, if_neg hp]

/-- **The loop ends well** when each protocol up to the first accepted one can be read; what
it returns then says whether there is such a one. -/
theorem checkProtocols_eq_ok {ps : List (List Char)} (hps : ∀ p ∈ ps, startsWith0x p = true)
    {r : Nat} : checkProtocols re token ps = .ok r ↔
      (∀ p ∈ ps.takeWhile (fun p => !accepts re token p), ∃ b, reading re token p = .ok b) ∧
        r = if ps.any (accepts re token) then authFull else authNone := by
  induction ps with
  | nil =>
      show Except.ok authNone = Except.ok r ↔ _
      simp [eq_comm]
  | cons p rest ih =>
      have hp := hps p List.mem_cons_self
      have hrest := ih fun q hq => hps q (List.mem_cons_of_mem _ hq)
      rw [checkProtocols_cons, if_pos hp]
      cases hread : reading re token p with
      | error e =>
          -- the exception of one that cannot be read
          have hnot : accepts re token p = false := by simp [accepts, hread]
          refine iff_of_false (by simp [bind, Except.bind]) ?_
          intro h
          obtain ⟨b, hb⟩ := h.1 p (by simp [hnot])
          rw [hread] at hb
          cases hb
      | ok found =>
          cases found with
          | true =>
              have hyes : accepts re token p = true := by simp [accepts, hread]
              show Except.ok authFull = Except.ok r ↔ _
              simp [hyes, eq_comm]
          | false =>
              have hnot : accepts re token p = false := by simp [accepts, hread]
              show checkProtocols re token rest = Except.ok r ↔ _
              rw [hrest]
              simp [hnot, hread]

theorem authFunc_eq_ok {r : Nat} : authFunc re token header = .ok r ↔
    (∀ p ∈ ahead re token header, ∃ b, reading re token p = .ok b) ∧
      ((Accepted re token header → r = authFull) ∧ (¬ Accepted re token header → r = authNone)) := by
  have hany : ((splitProtocols (header.getD [])).filter startsWith0x).any (accepts re token) = true ↔
      Accepted re token header := by
    simp only [List.any_eq_true, List.mem_filter, Accepted, and_assoc]
  unfold authFunc ahead
  rw [← checkProtocols_filter, checkProtocols_eq_ok fun p hp => (List.mem_filter.mp hp).2]
  refine and_congr_right fun _ => ?_
  by_cases haccepted : Accepted re token header
  · simp [hany.mpr haccepted, haccepted]
  · simp [mt hany.mp haccepted, haccepted]

/-! ## §5. A token of ordinary characters. -/

/-- The pieces of the pattern that a token makes. -/
def tokenPieces (token : List Char) : List Piece :=
  tokenWord.map .letter ++ [.spaces] ++ token.map .letter ++ [.anySpaces]

theorem flatMap_letters (s : List Char) : (s.map Piece.letter).flatMap Piece.text = s := by
  rw [List.flatMap_map]
  exact List.flatMap_singleton' s

theorem tokenPieces_text (token : List Char) :
    (tokenPieces token).flatMap Piece.text = tokenPattern token := by
  unfold tokenPieces tokenPattern
  rw [List.flatMap_append, List.flatMap_append, List.flatMap_append, flatMap_letters,
    flatMap_letters]
  rfl

theorem tokenPieces_ordinary (hplain : Plain token) :
    ∀ p ∈ tokenPieces token, p.IsOrdinary := by
  have hword : Plain tokenWord := by decide
  intro p hp
  simp only [tokenPieces, List.mem_append, List.mem_map, List.mem_singleton] at hp
  rcases hp with ((⟨c, hc, rfl⟩ | rfl) | ⟨c, hc, rfl⟩) | rfl
  · exact hword c hc
  · trivial
  · exact hplain c hc
  · trivial

/-- **The pattern of an ordinary token** matches what shows the token. -/
theorem matches_tokenPieces {text : List Char} :
    Matches re.sameLetter (tokenPieces token) text ↔ ShowsToken re token text := by
  unfold tokenPieces ShowsToken
  rw [List.append_assoc, List.append_assoc, matches_letters]
  constructor
  · intro h
    obtain ⟨word, rest, rfl, hword, hrest⟩ := h
    obtain ⟨gap, rest, rfl, hne, hgap, hrest⟩ := matches_spaces.mp hrest
    obtain ⟨shown, rest, rfl, hshown, hrest⟩ := matches_letters.mp hrest
    obtain ⟨trail, rest, rfl, htrail, hrest⟩ := matches_anySpaces.mp hrest
    rw [matches_nil] at hrest
    subst hrest
    exact ⟨word, gap, shown, trail, by simp, hword, hne, hgap, hshown, htrail⟩
  · intro h
    obtain ⟨word, gap, shown, trail, rfl, hword, hne, hgap, hshown, htrail⟩ := h
    refine ⟨word, gap ++ (shown ++ trail), by simp, hword, matches_spaces.mpr ?_⟩
    refine ⟨gap, shown ++ trail, rfl, hne, hgap, matches_letters.mpr ?_⟩
    refine ⟨shown, trail, rfl, hshown, matches_anySpaces.mpr ?_⟩
    exact ⟨trail, [], by simp, htrail, rfl⟩

/-- A protocol that is decoded is read, and accepted when it shows the token. -/
theorem reading_plain (hplain : Plain token) {p : List Char} : (∃ b, reading re token p = .ok b) ↔
    ∃ text, decodeFromHex p = .ok text := by
  constructor
  · intro h
    obtain ⟨b, hb⟩ := h
    obtain ⟨text, htext, -⟩ := bind_eq_ok.mp hb
    exact ⟨text, htext⟩
  · intro h
    obtain ⟨text, htext⟩ := h
    refine ⟨run re.sameLetter (tokenPieces token) text, ?_⟩
    unfold reading
    rw [htext]
    show fullmatch re (tokenPattern token) text = _
    rw [← tokenPieces_text, fullmatch_pieces re (tokenPieces_ordinary hplain)]

theorem accepts_plain (hplain : Plain token) {p : List Char} : accepts re token p = true ↔
    ∃ text, decodeFromHex p = .ok text ∧ ShowsToken re token text := by
  unfold accepts reading
  cases hdecoded : decodeFromHex p with
  | error e => exact iff_of_false (by simp [bind, Except.bind]) (by simp)
  | ok text =>
      show (match fullmatch re (tokenPattern token) text with
        | .ok found => found
        | .error _ => false) = true ↔ _
      rw [← tokenPieces_text, fullmatch_pieces re (tokenPieces_ordinary hplain)]
      show run re.sameLetter (tokenPieces token) text = true ↔ _
      rw [run_iff, matches_tokenPieces]
      simp

/-- What is accepted is what is presented. -/
theorem accepted_plain (hplain : Plain token) :
    Accepted re token header ↔ Presented re token header := by
  unfold Accepted Presented Spells
  refine exists_congr fun p => and_congr_right fun _ => ?_
  rw [accepts_plain hplain]
  simp only [decodeFromHex_eq_ok, and_assoc, exists_and_left]

/-! ## §6. The claim of the check. -/

/-- The check is right when nothing ahead of the accepted protocol fails to be read, and the
pattern accepts something just when the token is presented. -/
theorem checksToken_iff : ChecksToken re token header ↔
    (∀ p ∈ ahead re token header, ∃ b, reading re token p = .ok b) ∧
      (Accepted re token header ↔ Presented re token header) := by
  have hdistinct : authFull ≠ authNone := by decide
  unfold ChecksToken
  rw [authFunc_eq_ok, authFunc_eq_ok]
  by_cases haccepted : Accepted re token header <;>
    by_cases hpresented : Presented re token header <;>
    simp [haccepted, hpresented, hdistinct, hdistinct.symm]

/-- **The token is checked** exactly when that is so; for a token of ordinary characters,
when each protocol ahead of the accepted one can be decoded. -/
theorem token_checked_iff (re : Engine) (token : List Char) (header : Option (List Char)) :
    (ChecksToken re token header ↔
      (∀ p ∈ ahead re token header, ∃ b, reading re token p = .ok b) ∧
        (Accepted re token header ↔ Presented re token header)) ∧
    (Plain token → (ChecksToken re token header ↔
      ∀ p ∈ ahead re token header, ∃ text, decodeFromHex p = .ok text)) := by
  refine ⟨checksToken_iff, fun hplain => ?_⟩
  rw [checksToken_iff, and_iff_left (accepted_plain hplain)]
  exact forall_congr' fun p => forall_congr' fun _ => reading_plain hplain

/-- An engine for letters without accents. -/
def plainEngine : Engine where
  sameLetter c x := c.toLower == x.toLower
  other _ _ := .error (.valueError "not read")

/-- The token in any letter case: "0x546f6b656e20616263" spells "Token abc". -/
example : authFunc plainEngine ['A', 'B', 'C'] (some ['0', 'x', '5', '4', '6', 'f', '6', 'b', '6',
    '5', '6', 'e', '2', '0', '6', '1', '6', '2', '6', '3']) = .ok authFull := by decide +kernel

/-- "gink, 0xzz". -/
def garbled : List Char := ['g', 'i', 'n', 'k', ',', ' ', '0', 'x', 'z', 'z']

/-- **A protocol that is not hexadecimal** raises an exception. -/
theorem token_check_raises : ¬ ChecksToken plainEngine ['A', 'B', 'C'] (some garbled) := by
  have hraised : authFunc plainEngine ['A', 'B', 'C'] (some garbled) = .error notHex := by
    decide +kernel
  intro h
  by_cases hpresented : Presented plainEngine ['A', 'B', 'C'] (some garbled)
  · have hfull := h.1 hpresented
    rw [hraised] at hfull
    cases hfull
  · have hnone := h.2 hpresented
    rw [hraised] at hnone
    cases hnone

end TokenCheck

end Gink
