/-
  Gink.Sync.Requests — HTTP requests that reach a server (connection.py, _receive_header and
  _handle_wsgi_request; receive, where a websocket's request is dealt with).

  What arrives is kept until a blank line is found in it; then the request is taken apart and
  dealt with at once.
-/
import Gink.Proto.Lines
import Gink.Proto.Pattern
import Gink.Proto.Value

namespace Gink

namespace Requests

open Pattern Lines

/-! ## §1. Taking text apart. -/

/-- `text.strip()`. -/
def strip (text : List Char) : List Char :=
  ((text.dropWhile isSpace).reverse.dropWhile isSpace).reverse

/-- `text.split(sep, maxsplit)`. -/
def splitText (sep : Char) : Nat → List Char → List (List Char)
  | 0, text => [text]
  | maxsplit + 1, text =>
      if sep ∈ text then
        text.takeWhile (· != sep) :: splitText sep maxsplit ((text.dropWhile (· != sep)).drop 1)
      else [text]

/-- `text.split(maxsplit=maxsplit)`. -/
def splitWords : Nat → List Char → List (List Char)
  | maxsplit, text =>
      let text := text.dropWhile isSpace
      if text = [] then []
      else match maxsplit with
        | 0 => [text]
        | maxsplit + 1 => text.takeWhile (!isSpace ·) ::
            splitWords maxsplit (text.dropWhile (!isSpace ·))

/-- The zeros of the decimal digits; each is followed by the other nine. -/
def decimalZeros : List Nat :=
  [0x30, 0x660, 0x6f0, 0x7c0, 0x966, 0x9e6, 0xa66, 0xae6, 0xb66, 0xbe6, 0xc66, 0xce6, 0xd66, 0xde6,
   0xe50, 0xed0, 0xf20, 0x1040, 0x1090, 0x17e0, 0x1810, 0x1946, 0x19d0, 0x1a80, 0x1a90, 0x1b50,
   0x1bb0, 0x1c40, 0x1c50, 0xa620, 0xa8d0, 0xa900, 0xa9d0, 0xa9f0, 0xaa50, 0xabf0, 0xff10, 0x104a0,
   0x10d30, 0x11066, 0x110f0, 0x11136, 0x111d0, 0x112f0, 0x11450, 0x114d0, 0x11650, 0x116c0,
   0x11730, 0x118e0, 0x11950, 0x11c50, 0x11d50, 0x11da0, 0x11f50, 0x16a60, 0x16ac0, 0x16b50,
   0x1d7ce, 0x1d7d8, 0x1d7e2, 0x1d7ec, 0x1d7f6, 0x1e140, 0x1e2f0, 0x1e4f0, 0x1e950, 0x1fbf0]

/-- What `\d` matches in a `str`. -/
def isDecimal (c : Char) : Bool :=
  decimalZeros.any fun first => decide (first ≤ c.toNat ∧ c.toNat < first + 10)

/-- `HTTP/\d+\.\d+`. -/
def isHttpVersion : List Char → Bool
  | 'H' :: 'T' :: 'T' :: 'P' :: '/' :: rest =>
      match rest.takeWhile isDecimal, rest.dropWhile isDecimal with
      | _ :: _, '.' :: d :: minor => (d :: minor).all isDecimal
      | _, _ => false
  | _ => false

/-- `fullmatch(r"(\S+)\s+(\S+)\s+HTTP/\d+\.\d+", line)`: its groups. -/
def matchRequestLine (line : List Char) : Option (List Char × List Char) :=
  let method := line.takeWhile (!isSpace ·)
  let rest := (line.dropWhile (!isSpace ·)).dropWhile isSpace
  let target := rest.takeWhile (!isSpace ·)
  let rest := rest.dropWhile (!isSpace ·)
  if method ≠ [] ∧ target ≠ [] ∧ rest ≠ [] ∧ isHttpVersion (rest.dropWhile isSpace) = true then
    some (method, target)
  else none

/-- `items[key] = value`. -/
def setItem (items : List (List Char × List Char)) (key value : List Char) :
    List (List Char × List Char) :=
  if items.any (fun item => item.1 = key) then
    items.map fun item => if item.1 = key then (key, value) else item
  else items ++ [(key, value)]

/-- `items.get(key)`. -/
def getItem (items : List (List Char × List Char)) (key : List Char) : Option (List Char) :=
  (items.find? fun item => item.1 = key).map (·.2)

/-! ## §2. The header. -/

/-- `str.lower` and `str.upper`. -/
structure Letters where
  lower : List Char → List Char
  upper : List Char → List Char

/-- What the server was made with. -/
structure Serving where
  hasWsgi : Bool
  hasOnWsAct : Bool
  port : List Char
  /-- of `getpeername()` -/
  remoteAddr : List Char

/-- An exception, and what was sent before it. -/
structure Raised where
  error : Error
  sent : List Char := []
  deriving DecidableEq, Repr

/-- A part that sends nothing. -/
def silent {α : Type} : Except Error α → Except Raised α
  | .ok a => .ok a
  | .error error => .error { error }

/-- The attributes that `_receive_header` sets. -/
structure Received where
  header : Bytes
  body : Bytes
  requestMethod : List Char
  path : List Char
  queryString : List Char
  requestHeaders : List (List Char × List Char)
  isWebsocket : Bool

def headerItem (lib : Letters) (headerLine : List Char) : Except Error (List Char × List Char) :=
  match splitText ':' 1 headerLine with
  | [key, val] => .ok (lib.lower (strip key), strip val)
  | _ => .error (.valueError "not enough values to unpack (expected 2, got 1)")

/-- The loop over the header lines. -/
def readHeaders (lib : Letters) (headerLines : List (List Char)) :
    Except Error (List (List Char × List Char)) :=
  headerLines.foldlM (fun items headerLine => do
    let item ← headerItem lib headerLine
    return setItem items item.1 item.2) []

/-- `"websocket" in headers.get("upgrade", "").lower()`. -/
def asksForWebsocket (lib : Letters) (headers : List (List Char × List Char)) : Bool :=
  let upgrade := lib.lower ((getItem headers "upgrade".toList).getD [])
  decide ("websocket".toList <:+: upgrade)

/-- "HTTP/1.0 400 Bad Request", with a text. -/
def badRequest (text : String) : List Char :=
  ("HTTP/1.0 400 Bad Request\r\n Content-type: text/plain\r\n\r\n " ++ text).toList

/-- The path and the query string that the target is cut into at first. -/
def cutTarget (requesting : List Char) : Except Error (List Char × List Char) :=
  if '?' ∈ requesting then
    match splitText '?' 1 requesting with
    | [path, queryString] => .ok (path, queryString)
    | _ => .error (.valueError "not enough values to unpack (expected 2, got 1)")
  else .ok (requesting, [])

/-- `(method, path, _) = line.split(maxsplit=3)`. -/
def requestWords (requestLine : List Char) : Except Error (List Char × List Char) :=
  match splitWords 3 requestLine with
  | [requestMethod, path, _] => .ok (requestMethod, path)
  | _ => .error (.valueError "wrong number of values to unpack (expected 3)")

/-- What `_receive_header` does with the two groups of a buffer that matches. -/
def readRequest (lib : Letters) (server : Serving) (header body : Bytes) :
    Except Raised Received := do
  match splitLines (← silent (decode header)) with
  | [] => .error { error := .finished }
  | requestLine :: headerLines =>
      match matchRequestLine requestLine with
      | none => .error { error := .finished }
      | some (_, requesting) => do
          let cut ← silent (cutTarget requesting)
          -- the path is set once more, to all of the target
          let words ← silent (requestWords requestLine)
          let requestHeaders ← silent (readHeaders lib headerLines)
          let isWebsocket := asksForWebsocket lib requestHeaders
          if isWebsocket = true ∧ server.hasOnWsAct = false then
            .error { error := .finished, sent := badRequest "no websocket handler configured" }
          else
            .ok ⟨header, body, words.1, words.2, cut.2, requestHeaders, isWebsocket⟩

/-- `_receive_header()`, when `recv` returns the data: the buffer, or what was found in it. -/
def receiveHeader (lib : Letters) (server : Serving) (buffer data : Bytes) :
    Except Raised (Bytes ⊕ Received) :=
  if data = [] then .error { error := .finished }
  else match splitHeader (buffer ++ data) with
    | none => .ok (.inl (buffer ++ data))
    | some (header, body) => (readRequest lib server header body).map .inr

/-! ## §3. The request. -/

/-- The environment that a WSGI application is called with; its constants are left out. -/
structure Environ where
  input : Bytes
  requestMethod : List Char
  pathInfo : List Char
  serverName : List Char
  serverPort : List Char
  queryString : List Char
  remoteAddr : List Char
  contentType : Option (List Char)
  contentLength : Option (List Char)
  /-- the keys that start with HTTP_ -/
  http : List (List Char × List Char)

/-- `int(content_length or "0")`. -/
def contentLength (headers : List (List Char × List Char)) : Except Error Int :=
  match getItem headers "content-length".toList with
  | none | some [] => pyInt "0"
  | some text => pyInt (String.ofList text)

def httpItems (lib : Letters) (headers : List (List Char × List Char)) :
    List (List Char × List Char) :=
  headers.foldl (fun env item =>
    let httpKey := "HTTP_".toList ++ (lib.upper item.1).map fun c => if c = '-' then '_' else c
    if (getItem env httpKey).isNone ∧ item.1 ≠ "content-type".toList ∧
        item.1 ≠ "content-length".toList then setItem env httpKey item.2
    else env) []

/-- `_handle_wsgi_request()`, up to the call of the application. -/
def handleWsgiRequest (lib : Letters) (server : Serving) (r : Received) :
    Except Raised Environ := do
  if server.hasWsgi = false then
    throw { error := .finished, sent := badRequest "Websocket connections only!" }
  if r.requestHeaders = [] then throw { error := .assertionError "" }
  let length ← silent (contentLength r.requestHeaders)
  if length ≠ r.body.length then
    throw { error := .finished, sent := "HTTP/1.0 500 Internal Server Error\r\n\r\n".toList }
  let serverName := match getItem r.requestHeaders "host".toList with
    | some host => host.takeWhile (· != ':')
    | none => "unknown".toList
  return {
    input := r.body
    requestMethod := r.requestMethod
    pathInfo := r.path
    serverName
    serverPort := server.port
    queryString := r.queryString
    remoteAddr := server.remoteAddr
    contentType := getItem r.requestHeaders "content-type".toList
    contentLength := getItem r.requestHeaders "content-length".toList
    http := httpItems lib r.requestHeaders }

/-- What the connection has come to. -/
inductive Progress where
  | waiting (buffer : Bytes)
  | websocket (received : Received)
  /-- the application was called -/
  | called (env : Environ)

/-- The calls of `_receive_header` for the data that arrives, until one finds a request. -/
def receiveAll (lib : Letters) (server : Serving) :
    Bytes → List Bytes → Except Raised (Bytes ⊕ Received)
  | buffer, [] => .ok (.inl buffer)
  | buffer, data :: rest =>
      match receiveHeader lib server buffer data with
      | .ok (.inl buffer) => receiveAll lib server buffer rest
      | other => other

/-- `on_ready()` for all data that arrives. -/
def serve (lib : Letters) (server : Serving) (chunks : List Bytes) : Except Raised Progress := do
  match ← receiveAll lib server [] chunks with
  | .inl buffer => return .waiting buffer
  | .inr received =>
      if received.isWebsocket then return .websocket received
      else return .called (← handleWsgiRequest lib server received)

/-- What `receive` makes the path of a websocket's request. -/
def eventPath (target : List Char) : Except Error (List Char) :=
  if '?' ∈ target then
    match splitText '?' 2 target with
    | [path, _] => .ok path
    | _ => .error (.valueError "too many values to unpack (expected 2)")
  else .ok target

/-! ## §4. What a client sends. -/

/-- A request. -/
structure HttpRequest where
  method : List Char
  target : List Char
  major : List Char
  minor : List Char
  headerLines : List (List Char)
  lineEnd : LineEnd
  body : Bytes

namespace HttpRequest

variable (r : HttpRequest)

def version : List Char := ['H', 'T', 'T', 'P', '/'] ++ (r.major ++ '.' :: r.minor)

def requestLine : List Char := r.method ++ ' ' :: (r.target ++ ' ' :: r.version)

/-- The request line and the header lines, less the last line feed. -/
def header : Bytes := encode (Lines.joined r.lineEnd (r.requestLine :: r.headerLines))

/-- What comes before the body. -/
def head : Bytes := r.header ++ 10 :: encode r.lineEnd.text

/-- The target up to the first question mark. -/
def path : List Char := r.target.takeWhile (· != '?')

/-- What follows that. -/
def queryString : List Char := (r.target.dropWhile (· != '?')).drop 1

/-- The request is one of HTTP, not for a websocket, and tells the length of its body. -/
structure WellFormed (lib : Letters) : Prop where
  method : r.method ≠ [] ∧ ∀ c ∈ r.method, isSpace c = false
  target : r.target ≠ [] ∧ ∀ c ∈ r.target, isSpace c = false
  major : r.major ≠ [] ∧ ∀ c ∈ r.major, c.isDigit = true
  minor : r.minor ≠ [] ∧ ∀ c ∈ r.minor, c.isDigit = true
  headerLines : ∀ line ∈ r.headerLines, OneLine line ∧ ':' ∈ line
  length : ∀ headers, readHeaders lib r.headerLines = .ok headers →
    asksForWebsocket lib headers = false ∧ contentLength headers = .ok r.body.length

/-- The data that arrives; the head is complete with the last of it, and of the body there is
what it says. -/
structure Arrives (chunks : List Bytes) (arrived : Bytes) : Prop where
  nonempty : ∀ data ∈ chunks, data ≠ []
  whole : chunks.flatten = r.head ++ arrived
  body : arrived <+: r.body
  last : chunks.dropLast.flatten.length < r.head.length

end HttpRequest

/-- What the connection is to make of it. -/
def Parses (lib : Letters) (server : Serving) (r : HttpRequest) (chunks : List Bytes)
    (arrived : Bytes) : Prop :=
  (∃ received, receiveAll lib server [] chunks = .ok (.inr received) ∧ received.body = arrived ∧
    received.path = r.path ∧ received.queryString = r.queryString) ∧
  (arrived = r.body → ∃ env, serve lib server chunks = .ok (.called env) ∧ env.input = r.body ∧
    env.pathInfo = r.path ∧ env.queryString = r.queryString) ∧
  (arrived ≠ r.body → ∃ buffer, serve lib server chunks = .ok (.waiting buffer))

/-! ## §5. The text of a header. -/

section
variable {s t text : List Char} {c : Char}

/-- A word before what is not of it. -/
theorem takeWhile_word {p : Char → Bool} (hs : ∀ c ∈ s, p c = true) (hc : p c = false) :
    (s ++ c :: t).takeWhile p = s ∧ (s ++ c :: t).dropWhile p = c :: t := by
  constructor
  · rw [List.takeWhile_append_of_pos hs, List.takeWhile_cons_of_neg (by simp [hc]),
      List.append_nil]
  · rw [List.dropWhile_append_of_pos hs, List.dropWhile_cons_of_neg (by simp [hc])]

theorem takeWhile_all {p : Char → Bool} (hs : ∀ c ∈ s, p c = true) :
    s.takeWhile p = s ∧ s.dropWhile p = [] := by
  have htake := List.takeWhile_eq_self_iff.mpr hs
  refine ⟨htake, ?_⟩
  have hboth := List.takeWhile_append_dropWhile (p := p) (l := s)
  rw [htake] at hboth
  simpa using hboth

/-- Text that starts with no white space. -/
theorem dropWhile_space (hne : s ≠ []) (hs : ∀ c ∈ s, isSpace c = false) (t : List Char) :
    (s ++ t).dropWhile isSpace = s ++ t := by
  obtain ⟨c, rest, rfl⟩ := List.exists_cons_of_ne_nil hne
  rw [List.cons_append, List.dropWhile_cons_of_neg (by simp [hs c List.mem_cons_self])]

theorem splitText_one {sep : Char} (h : sep ∈ text) : splitText sep 1 text =
    [text.takeWhile (· != sep), (text.dropWhile (· != sep)).drop 1] := by
  unfold splitText splitText
  rw [if_pos h]

theorem isDecimal_of_isDigit (h : c.isDigit = true) : isDecimal c = true := by
  unfold Char.isDigit at h
  simp only [ge_iff_le, Bool.and_eq_true, decide_eq_true_eq] at h
  refine List.any_eq_true.mpr ⟨0x30, List.mem_cons_self, decide_eq_true ?_⟩
  exact ⟨h.1, Nat.lt_succ_of_le h.2⟩

theorem isSpace_of_isDigit (h : c.isDigit = true) : isSpace c = false := by
  unfold Char.isDigit at h
  simp only [ge_iff_le, Bool.and_eq_true, decide_eq_true_eq] at h
  have hlow : 48 ≤ c.toNat := h.1
  have hhigh : c.toNat ≤ 57 := h.2
  unfold isSpace
  simp only [decide_eq_false_iff_not]
  omega

/-- What ends a line is white space. -/
theorem oneLine_of_not_space (h : isSpace c = false) : isLineBreak c = false := by
  unfold isSpace at h
  unfold isLineBreak
  simp only [decide_eq_false_iff_not] at h ⊢
  omega

end

section
variable {lib : Letters} {server : Serving} {r : HttpRequest}

theorem HttpRequest.WellFormed.version_not_space (h : r.WellFormed lib) :
    r.version ≠ [] ∧ ∀ c ∈ r.version, isSpace c = false := by
  refine ⟨by simp [HttpRequest.version], ?_⟩
  intro c hc
  simp only [HttpRequest.version, List.mem_append, List.mem_cons] at hc
  rcases hc with hc | hc | rfl | hc
  · simp only [List.not_mem_nil, or_false] at hc
    rcases hc with rfl | rfl | rfl | rfl | rfl <;> rfl
  · exact isSpace_of_isDigit (h.major.2 c hc)
  · rfl
  · exact isSpace_of_isDigit (h.minor.2 c hc)

theorem HttpRequest.WellFormed.isHttpVersion (h : r.WellFormed lib) :
    isHttpVersion r.version = true := by
  have hdot : isDecimal '.' = false := by decide
  have hmajor : ∀ c ∈ r.major, isDecimal c = true :=
    fun c hc => isDecimal_of_isDigit (h.major.2 c hc)
  have hminor : r.minor.all isDecimal = true :=
    List.all_eq_true.mpr fun c hc => isDecimal_of_isDigit (h.minor.2 c hc)
  obtain ⟨htake, hdrop⟩ := @takeWhile_word r.major r.minor '.' isDecimal hmajor hdot
  obtain ⟨d, major, hd⟩ := List.exists_cons_of_ne_nil h.major.1
  obtain ⟨d', minor, hd'⟩ := List.exists_cons_of_ne_nil h.minor.1
  show (match (r.major ++ '.' :: r.minor).takeWhile isDecimal,
      (r.major ++ '.' :: r.minor).dropWhile isDecimal with
    | _ :: _, '.' :: d :: minor => (d :: minor).all isDecimal
    | _, _ => false) = true
  rw [htake, hdrop, hd]
  rw [hd'] at hminor ⊢
  exact hminor

/-- The request line is one line. -/
theorem HttpRequest.WellFormed.lines (h : r.WellFormed lib) :
    ∀ line ∈ r.requestLine :: r.headerLines, OneLine line ∧ line ≠ [] := by
  intro line hline
  rcases List.mem_cons.mp hline with rfl | hline
  · refine ⟨?_, by simp [HttpRequest.requestLine]⟩
    intro c hc
    simp only [HttpRequest.requestLine, List.mem_append, List.mem_cons] at hc
    rcases hc with hc | rfl | hc | rfl | hc
    · exact oneLine_of_not_space (h.method.2 c hc)
    · rfl
    · exact oneLine_of_not_space (h.target.2 c hc)
    · rfl
    · exact oneLine_of_not_space (h.version_not_space.2 c hc)
  · obtain ⟨hone, hcolon⟩ := h.headerLines line hline
    exact ⟨hone, List.ne_nil_of_mem hcolon⟩

/-- **The request line** is taken apart in two ways. -/
theorem HttpRequest.WellFormed.match_requestLine (h : r.WellFormed lib) :
    matchRequestLine r.requestLine = some (r.method, r.target) ∧
      splitWords 3 r.requestLine = [r.method, r.target, r.version] := by
  have hspace : isSpace ' ' = true := by decide
  have hword : ∀ {w : List Char}, (∀ c ∈ w, isSpace c = false) →
      ∀ c ∈ w, (!isSpace c) = true := fun hw c hc => by rw [hw c hc]; rfl
  obtain ⟨hversion, hnospace⟩ := h.version_not_space
  obtain ⟨hmethod, hafter⟩ := @takeWhile_word r.method (r.target ++ ' ' :: r.version) ' '
    (!isSpace ·) (hword h.method.2) (by rw [hspace]; rfl)
  obtain ⟨htarget, hlast⟩ := @takeWhile_word r.target r.version ' '
    (!isSpace ·) (hword h.target.2) (by rw [hspace]; rfl)
  obtain ⟨hall, hnone⟩ := takeWhile_all (hword hnospace)
  have hskip := dropWhile_space h.target.1 h.target.2 (' ' :: r.version)
  have hskip' : r.version.dropWhile isSpace = r.version := by
    have := dropWhile_space hversion hnospace []
    rwa [List.append_nil] at this
  have hstart := dropWhile_space h.method.1 h.method.2 (' ' :: (r.target ++ ' ' :: r.version))
  constructor
  · unfold matchRequestLine HttpRequest.requestLine
    simp only [hmethod, hafter, List.dropWhile_cons_of_pos hspace, hskip, htarget, hlast, hskip']
    rw [if_pos ⟨h.method.1, h.target.1, List.cons_ne_nil _ _, h.isHttpVersion⟩]
  · have hline : r.method ++ ' ' :: (r.target ++ ' ' :: r.version) ≠ [] := by simp
    have hrest : r.target ++ ' ' :: r.version ≠ [] := by simp
    unfold HttpRequest.requestLine
    unfold splitWords
    simp only [hstart, hmethod, hafter, if_neg hline]
    unfold splitWords
    simp only [List.dropWhile_cons_of_pos hspace, hskip, htarget, hlast, if_neg hrest]
    unfold splitWords
    simp only [List.dropWhile_cons_of_pos hspace, hskip', hall, hnone, if_neg hversion]
    rfl

theorem setItem_ne_nil (items : List (List Char × List Char)) (key value : List Char) :
    setItem items key value ≠ [] := by
  unfold setItem
  split_ifs with hany
  · intro hnil
    rw [List.map_eq_nil_iff.mp hnil] at hany
    cases hany
  · simp

/-- **Header lines with colons** are read; where there is any there are headers. -/
theorem exists_readHeaders {headerLines : List (List Char)} (h : ∀ line ∈ headerLines, ':' ∈ line) :
    ∃ headers, readHeaders lib headerLines = .ok headers ∧
      (headers = [] ↔ headerLines = []) := by
  unfold readHeaders
  have hloop : ∀ items, ∃ headers, headerLines.foldlM (fun items headerLine => do
      let item ← headerItem lib headerLine
      return setItem items item.1 item.2) items = Except.ok headers ∧
        (headers = [] ↔ items = [] ∧ headerLines = []) := by
    induction headerLines with
    | nil => exact fun items => ⟨items, rfl, by simp⟩
    | cons line rest ih =>
        intro items
        have hitem : headerItem lib line = .ok (lib.lower (strip (line.takeWhile (· != ':'))),
            strip ((line.dropWhile (· != ':')).drop 1)) := by
          unfold headerItem
          rw [splitText_one (h line List.mem_cons_self)]
        obtain ⟨headers, hread, hempty⟩ := ih (fun l hl => h l (List.mem_cons_of_mem _ hl))
          (setItem items (lib.lower (strip (line.takeWhile (· != ':'))))
            (strip ((line.dropWhile (· != ':')).drop 1)))
        refine ⟨headers, ?_, ?_⟩
        · rw [List.foldlM_cons, hitem]
          exact hread
        · rw [hempty]
          simp [setItem_ne_nil]
  obtain ⟨headers, hread, hempty⟩ := hloop []
  exact ⟨headers, hread, by simpa using hempty⟩

theorem HttpRequest.path_eq (h : '?' ∉ r.target) : r.path = r.target ∧ r.queryString = [] := by
  have hall : ∀ c ∈ r.target, (c != '?') = true := by
    intro c hc
    rw [bne_iff_ne]
    rintro rfl
    exact h hc
  obtain ⟨htake, hdrop⟩ := takeWhile_all hall
  unfold HttpRequest.path HttpRequest.queryString
  rw [htake, hdrop]
  exact ⟨rfl, rfl⟩

/-- The path of a target with a question mark is not the target. -/
theorem HttpRequest.path_ne (h : '?' ∈ r.target) : r.target ≠ r.path := by
  intro heq
  rw [heq] at h
  have hnot := List.mem_takeWhile_imp h
  simp at hnot

/-- **The header of a request** is read, whatever is taken for the body. -/
theorem readRequest_header (h : r.WellFormed lib) (body : Bytes) :
    ∃ headers, readHeaders lib r.headerLines = .ok headers ∧
      readRequest lib server r.header body = .ok ⟨r.header, body, r.method, r.target, r.queryString,
        headers, false⟩ := by
  obtain ⟨headers, hheaders, -⟩ := @exists_readHeaders lib r.headerLines
    fun line hline => (h.headerLines line hline).2
  refine ⟨headers, hheaders, ?_⟩
  obtain ⟨hmatch, hwords⟩ := h.match_requestLine
  have hlines : splitLines (Lines.joined r.lineEnd (r.requestLine :: r.headerLines)) =
      r.requestLine :: r.headerLines := splitLines_joined r.lineEnd h.lines
  have hno := (h.length headers hheaders).1
  have hcut : cutTarget r.target = .ok (r.path, r.queryString) := by
    unfold cutTarget
    by_cases hmark : '?' ∈ r.target
    · rw [if_pos hmark, splitText_one hmark]
      rfl
    · rw [if_neg hmark, (HttpRequest.path_eq hmark).1, (HttpRequest.path_eq hmark).2]
  have hrequest : requestWords r.requestLine = .ok (r.method, r.target) := by
    unfold requestWords
    rw [hwords]
  unfold readRequest HttpRequest.header
  rw [decode_encode]
  simp only [silent, bind, Except.bind, hlines, hmatch, hcut, hrequest, hheaders, hno]
  rfl

end

/-! ## §6. What has arrived. -/

section
variable {lib : Letters} {server : Serving} {r : HttpRequest} {chunks : List Bytes}
  {arrived : Bytes}

/-- What `_receive_header` makes of all that is in the buffer. -/
def inBuffer (lib : Letters) (server : Serving) (buffer : Bytes) :
    Except Raised (Bytes ⊕ Received) :=
  match splitHeader buffer with
  | none => .ok (.inl buffer)
  | some (header, body) => (readRequest lib server header body).map .inr

theorem splitHeader_of_append {s t : Bytes} (h : splitHeader (s ++ t) = none) :
    splitHeader s = none := by
  cases s with
  | nil => rfl
  | cons b rest =>
      rw [List.cons_append, splitHeader_eq_none] at h
      rw [splitHeader_eq_none, ← Bool.not_eq_true]
      intro hblank
      rw [hasBlank_append hblank] at h
      cases h

/-- **The calls wait** for the last of the data, if all before it has no blank line. -/
theorem receiveAll_eq (hne : chunks ≠ []) (hdata : ∀ data ∈ chunks, data ≠ []) {buffer : Bytes}
    (h : splitHeader (buffer ++ chunks.dropLast.flatten) = none) :
    receiveAll lib server buffer chunks = inBuffer lib server (buffer ++ chunks.flatten) := by
  induction chunks generalizing buffer with
  | nil => exact absurd rfl hne
  | cons data rest ih =>
      have hfirst : receiveHeader lib server buffer data =
          inBuffer lib server (buffer ++ data) := by
        unfold receiveHeader
        rw [if_neg (hdata data List.mem_cons_self)]
        rfl
      unfold receiveAll
      rw [hfirst]
      cases rest with
      | nil =>
          rw [List.flatten_singleton]
          cases inBuffer lib server (buffer ++ data) with
          | error e => rfl
          | ok found => cases found <;> rfl
      | cons next rest =>
          rw [List.dropLast_cons_of_ne_nil (List.cons_ne_nil _ _), List.flatten_cons,
            ← List.append_assoc] at h
          have hwaits : inBuffer lib server (buffer ++ data) = .ok (.inl (buffer ++ data)) := by
            unfold inBuffer
            rw [splitHeader_of_append h]
          rw [hwaits]
          show receiveAll lib server (buffer ++ data) (next :: rest) = _
          rw [ih (List.cons_ne_nil _ _) (fun d hd => hdata d (List.mem_cons_of_mem _ hd)) h,
            List.append_assoc]
          rfl

/-- **A head that is not complete** has no blank line. -/
theorem HttpRequest.WellFormed.splitHeader_incomplete (h : r.WellFormed lib) {s : Bytes}
    (hs : s <+: r.head) (hlt : s.length < r.head.length) : splitHeader s = none := by
  obtain ⟨rest, hrest⟩ := hs
  -- all but the last line feed
  have hlast : r.head = r.header ++ 10 :: encode r.lineEnd.return ++ [10] := by
    unfold HttpRequest.head LineEnd.text
    rw [encode_append, List.append_assoc, List.cons_append]
    rfl
  have hne : rest ≠ [] := by
    rintro rfl
    rw [List.append_nil] at hrest
    rw [hrest] at hlt
    omega
  rw [hlast, ← List.dropLast_append_getLast hne, ← List.append_assoc] at hrest
  have hbytesOf := (List.append_inj' hrest rfl).1
  refine @splitHeader_of_append s rest.dropLast ?_
  rw [hbytesOf]
  obtain ⟨hblank, -⟩ := hasBlank_joined r.lineEnd h.lines (10 :: encode r.lineEnd.return)
    (List.cons_ne_nil _ _)
  have hfree : hasBlank (encode r.lineEnd.return ++ 10 :: encode r.lineEnd.return) = false := by
    cases r.lineEnd <;> rfl
  rw [hfree] at hblank
  cases hbytes : encode (Lines.joined r.lineEnd (r.requestLine :: r.headerLines)) ++
      10 :: encode r.lineEnd.return with
  | nil => exact absurd hbytes (by simp)
  | cons b bytes =>
      rw [hbytes] at hblank
      unfold hasBlank at hblank
      show splitHeader (encode (Lines.joined r.lineEnd (r.requestLine :: r.headerLines)) ++
        10 :: encode r.lineEnd.return) = none
      rw [hbytes, splitHeader_eq_none]
      exact (Bool.or_eq_false_iff.mp hblank).2

/-- What arrives is looked at when the head is complete. -/
theorem HttpRequest.Arrives.in_buffer (h : r.Arrives chunks arrived) (hr : r.WellFormed lib) :
    receiveAll lib server [] chunks = inBuffer lib server (r.head ++ arrived) := by
  have hhead : r.head ≠ [] := by
    unfold HttpRequest.head
    simp
  have hne : chunks ≠ [] := by
    rintro rfl
    exact hhead (List.append_eq_nil_iff.mp h.whole.symm).1
  rw [receiveAll_eq hne h.nonempty, List.nil_append, h.whole]
  rw [List.nil_append]
  refine hr.splitHeader_incomplete ?_ h.last
  -- both are the beginning of what arrives
  have hbefore : chunks.dropLast.flatten <+: r.head ++ arrived := by
    rw [← h.whole]
    conv_rhs => rw [← List.dropLast_append_getLast hne, List.flatten_append]
    exact List.prefix_append _ _
  exact List.prefix_of_prefix_length_le hbefore (List.prefix_append _ _) h.last.le

theorem head_append (r : HttpRequest) (arrived : Bytes) :
    r.head ++ arrived = r.header ++ 10 :: (encode r.lineEnd.text ++ arrived) := by
  unfold HttpRequest.head
  rw [List.append_assoc, List.cons_append]

/-- **The split** is behind the head when no blank line follows it. -/
theorem HttpRequest.WellFormed.splitHeader_head (h : r.WellFormed lib)
    (hstart : afterNewline arrived = none) (hblank : hasBlank arrived = false) :
    splitHeader (r.head ++ arrived) = some (r.header, arrived) := by
  have hne : r.header ≠ [] := by
    refine encode_ne_nil ?_
    intro hnil
    have hlines := splitLines_joined r.lineEnd h.lines
    rw [hnil] at hlines
    cases hlines
  rw [head_append]
  refine splitHeader_last hne ?_ ?_
  · cases r.lineEnd <;> rfl
  · rw [hasBlank_end, hstart, hblank]
    rfl

/-- Otherwise it is behind a later blank line. -/
theorem splitHeader_later (h : afterNewline arrived ≠ none ∨ hasBlank arrived = true) :
    ∃ header body, splitHeader (r.head ++ arrived) = some (header, body) ∧
      body.length < arrived.length := by
  have hshape : r.head ++ arrived = (r.header ++ 10 :: encode r.lineEnd.return) ++ 10 :: arrived := by
    rw [head_append]
    unfold LineEnd.text
    rw [encode_append]
    simp only [List.append_assoc, List.cons_append]
    rfl
  rw [hshape]
  by_cases hblank : hasBlank arrived = true
  · obtain ⟨header, body, hsplit, hlength⟩ := splitHeader_length hblank 10
      (r.header ++ 10 :: encode r.lineEnd.return)
    exact ⟨header, body, hsplit, by omega⟩
  · obtain ⟨body, hbody⟩ := Option.ne_none_iff_exists'.mp (h.resolve_right hblank)
    refine ⟨_, body, splitHeader_last (by simp) ?_ (by simpa using hblank),
      afterNewline_length hbody⟩
    show (some arrived).bind afterNewline = _
    exact hbody

end

/-! ## §7. What is made of a request. -/

section
variable {lib : Letters} {server : Serving} {r : HttpRequest} {chunks : List Bytes}
  {arrived : Bytes}

theorem ok_of_bind {α β : Type} {x : Except Raised α} {f : α → Except Raised β} {b : β}
    (h : (x >>= f) = .ok b) : ∃ a, x = .ok a ∧ f a = .ok b := by
  cases x with
  | error e => cases h
  | ok a => exact ⟨a, rfl, h⟩

/-- What is read of a request has the body that it was given. -/
theorem readRequest_body {header body : Bytes} {received : Received}
    (h : readRequest lib server header body = .ok received) : received.body = body := by
  unfold readRequest at h
  obtain ⟨text, -, h⟩ := ok_of_bind h
  split at h
  · cases h
  · split at h
    · cases h
    · obtain ⟨cut, -, h⟩ := ok_of_bind h
      obtain ⟨words, -, h⟩ := ok_of_bind h
      obtain ⟨headers, -, h⟩ := ok_of_bind h
      simp only at h
      split_ifs at h
      rw [← Except.ok.inj h]

/-- What `_receive_header` finds in a request without a later blank line. -/
theorem HttpRequest.Arrives.receives (h : r.Arrives chunks arrived) (hr : r.WellFormed lib)
    (hstart : afterNewline arrived = none) (hblank : hasBlank arrived = false) :
    ∃ headers, readHeaders lib r.headerLines = .ok headers ∧
      receiveAll lib server [] chunks = .ok (.inr ⟨r.header, arrived, r.method, r.target,
        r.queryString, headers, false⟩) := by
  obtain ⟨headers, hheaders, hread⟩ := @readRequest_header lib server r hr arrived
  refine ⟨headers, hheaders, ?_⟩
  rw [h.in_buffer hr]
  unfold inBuffer
  rw [hr.splitHeader_head hstart hblank]
  show (readRequest lib server r.header arrived).map Sum.inr = _
  rw [hread]
  rfl

theorem serve_of_receives {received : Received} (hno : received.isWebsocket = false)
    (h : receiveAll lib server [] chunks = .ok (.inr received)) :
    serve lib server chunks = (handleWsgiRequest lib server received).map .called := by
  unfold serve
  rw [h]
  show (if received.isWebsocket = true then _ else _) = _
  rw [hno, if_neg Bool.false_ne_true]
  cases handleWsgiRequest lib server received <;> rfl

/-- **What is read has a shorter body** where a blank line follows the head. -/
theorem HttpRequest.Arrives.no_blank (h : r.Arrives chunks arrived) (hr : r.WellFormed lib)
    {received : Received} (hreceived : receiveAll lib server [] chunks = .ok (.inr received))
    (hbody : received.body = arrived) :
    afterNewline arrived = none ∧ hasBlank arrived = false := by
  by_contra hnot
  have hlater : afterNewline arrived ≠ none ∨ hasBlank arrived = true := by
    rcases not_and_or.mp hnot with hstart | hblank
    · exact Or.inl hstart
    · exact Or.inr (by simpa using hblank)
  obtain ⟨header, body, hsplit, hlength⟩ := @splitHeader_later r arrived hlater
  rw [h.in_buffer hr] at hreceived
  unfold inBuffer at hreceived
  rw [hsplit] at hreceived
  have hread : (readRequest lib server header body).map (Sum.inr : Received → Bytes ⊕ Received) =
      .ok (.inr received) := hreceived
  cases hrequest : readRequest lib server header body with
  | error e =>
      rw [hrequest] at hread
      cases hread
  | ok found =>
      rw [hrequest] at hread
      have hsame : found = received := Sum.inr.inj (Except.ok.inj hread)
      have hshort := readRequest_body hrequest
      rw [hsame, hbody] at hshort
      rw [hshort] at hlength
      omega

/-- The application is called when there are headers and the body is as long as they say. -/
theorem handleWsgiRequest_ok (hwsgi : server.hasWsgi = true) {received : Received}
    (hheaders : received.requestHeaders ≠ [])
    (hlength : contentLength received.requestHeaders = .ok received.body.length) :
    ∃ env, handleWsgiRequest lib server received = .ok env ∧ env.input = received.body ∧
      env.pathInfo = received.path ∧ env.queryString = received.queryString := by
  unfold handleWsgiRequest
  simp only [hwsgi, Bool.true_eq_false, if_false, hheaders, hlength, silent, bind, Except.bind,
    ne_eq, not_true_eq_false, pure, Except.pure]
  exact ⟨_, rfl, rfl, rfl, rfl⟩

/-- A target with a question mark, around the first. -/
theorem target_split {target : List Char} (h : '?' ∈ target) :
    target = target.takeWhile (· != '?') ++ '?' :: (target.dropWhile (· != '?')).drop 1 := by
  have hsplit := List.takeWhile_append_dropWhile (p := (· != '?')) (l := target)
  cases hdrop : target.dropWhile (· != '?') with
  | nil =>
      have hall := List.dropWhile_eq_nil_iff.mp hdrop '?' h
      simp at hall
  | cons c rest =>
      have hc : c = '?' := by
        have hfirst := List.head_dropWhile_not (p := (· != '?')) (l := target) (by simp [hdrop])
        simp only [hdrop, List.head_cons] at hfirst
        simpa using hfirst
      rw [hdrop, hc] at hsplit
      exact hsplit.symm

/-- **The path of a websocket** is cut at the first question mark, if there is one at most. -/
theorem eventPath_iff (target : List Char) :
    eventPath target = .ok (target.takeWhile (· != '?')) ↔ target.count '?' ≤ 1 := by
  unfold eventPath
  by_cases hmark : '?' ∈ target
  · have hnone : (target.takeWhile (· != '?')).count '?' = 0 := by
      refine List.count_eq_zero.mpr fun hin => ?_
      have hnot := List.mem_takeWhile_imp hin
      simp at hnot
    have hcount : target.count '?' = 1 + ((target.dropWhile (· != '?')).drop 1).count '?' := by
      conv_lhs => rw [target_split hmark]
      rw [List.count_append, hnone, List.count_cons_self]
      omega
    have hfirst : splitText '?' 2 target = target.takeWhile (· != '?') ::
        splitText '?' 1 ((target.dropWhile (· != '?')).drop 1) := by
      conv_lhs => unfold splitText
      rw [if_pos hmark]
    rw [if_pos hmark, hcount, hfirst]
    by_cases hmore : '?' ∈ (target.dropWhile (· != '?')).drop 1
    · rw [splitText_one hmore]
      have hpos := List.count_pos_iff.mpr hmore
      exact iff_of_false (by simp) (by omega)
    · have hlast : splitText '?' 1 ((target.dropWhile (· != '?')).drop 1) =
          [(target.dropWhile (· != '?')).drop 1] := by
        unfold splitText
        rw [if_neg hmore]
      rw [hlast]
      exact iff_of_true rfl (by rw [List.count_eq_zero.mpr hmore])
  · have hall : ∀ c ∈ target, (c != '?') = true := by
      intro c hc
      rw [bne_iff_ne]
      rintro rfl
      exact hmark hc
    rw [if_neg hmark, (takeWhile_all hall).1]
    exact iff_of_true rfl (by rw [List.count_eq_zero.mpr hmark]; omega)

/-- **A request is parsed** as it is meant exactly when it has header lines and all of its
body has arrived with them, no question mark is in its target, and its body neither starts
with the end of a line nor has a blank line.  The path of a websocket is right when there is
at most one question mark. -/
theorem request_parsed_iff (hwsgi : server.hasWsgi = true) (hr : r.WellFormed lib)
    (h : r.Arrives chunks arrived) :
    (Parses lib server r chunks arrived ↔
      '?' ∉ r.target ∧ r.headerLines ≠ [] ∧ arrived = r.body ∧
        afterNewline r.body = none ∧ hasBlank r.body = false) ∧
    ∀ target, eventPath target = .ok (target.takeWhile (· != '?')) ↔ target.count '?' ≤ 1 := by
  refine ⟨?_, eventPath_iff⟩
  constructor
  · intro hparses
    obtain ⟨⟨received, hreceived, hbody, hpath, hquery⟩, hcomplete, hwaits⟩ := hparses
    obtain ⟨hstart, hblank⟩ := h.no_blank hr hreceived hbody
    obtain ⟨headers, hheaders, hfound⟩ := @HttpRequest.Arrives.receives lib server r chunks
      arrived h hr hstart hblank
    have hserve := serve_of_receives rfl hfound
    have hsame := Sum.inr.inj (Except.ok.inj (hfound.symm.trans hreceived))
    have hall : arrived = r.body := by
      by_contra hne
      obtain ⟨buffer, hwaiting⟩ := hwaits hne
      rw [hwaiting] at hserve
      cases hhandled : handleWsgiRequest lib server ⟨r.header, arrived, r.method, r.target,
          r.queryString, headers, false⟩ with
      | error e =>
          rw [hhandled] at hserve
          cases hserve
      | ok env =>
          rw [hhandled] at hserve
          cases hserve
    refine ⟨?_, ?_, hall, hall ▸ hstart, hall ▸ hblank⟩
    · intro hmark
      rw [← hsame] at hpath
      exact HttpRequest.path_ne hmark hpath
    · intro hnone
      obtain ⟨env, hcalled, -⟩ := hcomplete hall
      have hempty : headers = [] := by
        rw [hnone] at hheaders
        exact (Except.ok.inj hheaders).symm
      rw [hcalled, hempty] at hserve
      unfold handleWsgiRequest at hserve
      simp only [hwsgi, Bool.true_eq_false, if_false] at hserve
      cases hserve
  · intro hcondition
    obtain ⟨hmark, hlines, rfl, hstart, hblank⟩ := hcondition
    obtain ⟨headers, hheaders, hfound⟩ := @HttpRequest.Arrives.receives lib server r chunks
      _ h hr hstart hblank
    obtain ⟨hpath, hquery⟩ := HttpRequest.path_eq hmark
    have hne : headers ≠ [] := by
      obtain ⟨headers', hheaders', hiff⟩ := @exists_readHeaders lib r.headerLines
        fun line hline => (hr.headerLines line hline).2
      rw [hheaders] at hheaders'
      rw [Ne, Except.ok.inj hheaders', hiff]
      exact hlines
    refine ⟨⟨_, hfound, rfl, hpath.symm, rfl⟩, fun _ => ?_, fun hnot => absurd rfl hnot⟩
    obtain ⟨env, henv, hinput, hinfo, hstring⟩ := @handleWsgiRequest_ok lib server hwsgi
      ⟨r.header, r.body, r.method, r.target, r.queryString, headers, false⟩ hne
      (hr.length headers hheaders).2
    refine ⟨env, ?_, hinput, hinfo.trans hpath.symm, hstring⟩
    rw [serve_of_receives rfl hfound, henv]
    rfl

end

/-! ## §8. Two requests. -/

/-- Letters of ASCII. -/
def plainLetters : Letters := ⟨List.map Char.toLower, List.map Char.toUpper⟩

def sampleServer : Serving := ⟨true, false, "8080".toList, "127.0.0.1".toList⟩

/-- A request to post "hi". -/
def posting : HttpRequest where
  method := ['P', 'O', 'S', 'T']
  target := ['/', 'a']
  major := ['1']
  minor := ['0']
  headerLines := [['C', 'o', 'n', 't', 'e', 'n', 't', '-', 'L', 'e', 'n', 'g', 't', 'h', ':', '2']]
  lineEnd := .crlf
  body := [104, 105]

/-- A request with a query. -/
def asking : HttpRequest where
  method := ['G', 'E', 'T']
  target := ['/', 'a', '?', 'b']
  major := ['1']
  minor := ['0']
  headerLines := [['H', 'o', 's', 't', ':', 'x']]
  lineEnd := .crlf
  body := []

/-- What arrives of a request in two parts. -/
def inTwo (r : HttpRequest) : List Bytes := [r.head.take 9, r.head.drop 9 ++ r.body]

theorem arrives_inTwo {r : HttpRequest} (h : 9 < r.head.length) : r.Arrives (inTwo r) r.body where
  nonempty := by
    intro data hdata
    simp only [inTwo, List.mem_cons, List.not_mem_nil, or_false] at hdata
    rcases hdata with rfl | rfl
    · exact List.ne_nil_of_length_pos (by rw [List.length_take]; omega)
    · exact List.ne_nil_of_length_pos (by rw [List.length_append, List.length_drop]; omega)
  whole := by
    show r.head.take 9 ++ ((r.head.drop 9 ++ r.body) ++ []) = _
    rw [List.append_nil, ← List.append_assoc, List.take_append_drop]
  body := List.prefix_rfl
  last := by
    show (r.head.take 9 ++ []).length < _
    rw [List.append_nil, List.length_take]
    omega

theorem none_of_all {p : Char → Bool} {s : List Char} (h : s.all (fun c => !p c) = true) :
    ∀ c ∈ s, p c = false := by
  intro c hc
  simpa using List.all_eq_true.mp h c hc

theorem posting_wellFormed : posting.WellFormed plainLetters where
  method := ⟨List.cons_ne_nil _ _, none_of_all (by decide)⟩
  target := ⟨List.cons_ne_nil _ _, none_of_all (by decide)⟩
  major := ⟨List.cons_ne_nil _ _, List.all_eq_true.mp (by decide)⟩
  minor := ⟨List.cons_ne_nil _ _, List.all_eq_true.mp (by decide)⟩
  headerLines := by
    intro line hline
    rw [List.mem_singleton.mp hline]
    exact ⟨none_of_all (by decide), by decide⟩
  length := by
    intro headers hheaders
    have hread : readHeaders plainLetters posting.headerLines =
        .ok [("content-length".toList, ['2'])] := by decide +kernel
    rw [← Except.ok.inj (hread.symm.trans hheaders)]
    exact ⟨by decide +kernel, by decide +kernel⟩

theorem request_parsed_iff_posting :
    Parses plainLetters sampleServer posting (inTwo posting) posting.body :=
  (request_parsed_iff rfl posting_wellFormed (arrives_inTwo (by decide +kernel))).1.mpr
    ⟨by decide, List.cons_ne_nil _ _, rfl, by decide, by decide⟩

theorem asking_wellFormed : asking.WellFormed plainLetters where
  method := ⟨List.cons_ne_nil _ _, none_of_all (by decide)⟩
  target := ⟨List.cons_ne_nil _ _, none_of_all (by decide)⟩
  major := ⟨List.cons_ne_nil _ _, List.all_eq_true.mp (by decide)⟩
  minor := ⟨List.cons_ne_nil _ _, List.all_eq_true.mp (by decide)⟩
  headerLines := by
    intro line hline
    rw [List.mem_singleton.mp hline]
    exact ⟨none_of_all (by decide), by decide⟩
  length := by
    intro headers hheaders
    have hread : readHeaders plainLetters asking.headerLines =
        .ok [("host".toList, ['x'])] := by decide +kernel
    rw [← Except.ok.inj (hread.symm.trans hheaders)]
    exact ⟨by decide +kernel, by decide +kernel⟩

/-- The path that the application is given. -/
def pathGiven (progress : Except Raised Progress) : Option (List Char) :=
  match progress with
  | .ok (.called env) => some env.pathInfo
  | _ => none

/-- **The path of a request with a query** is all of its target. -/
theorem query_stays_in_path : asking.WellFormed plainLetters ∧
    asking.Arrives (inTwo asking) asking.body ∧
    ¬ Parses plainLetters sampleServer asking (inTwo asking) asking.body := by
  refine ⟨asking_wellFormed, arrives_inTwo (by decide +kernel), ?_⟩
  intro hparses
  obtain ⟨env, hcalled, -, hpath, -⟩ := hparses.2.1 rfl
  have hgiven : pathGiven (serve plainLetters sampleServer (inTwo asking)) =
      some ['/', 'a', '?', 'b'] := by decide +kernel
  rw [hcalled] at hgiven
  have htarget : env.pathInfo = ['/', 'a', '?', 'b'] := Option.some.inj hgiven
  rw [hpath] at htarget
  exact absurd htarget (by decide)

end Requests

end Gink
