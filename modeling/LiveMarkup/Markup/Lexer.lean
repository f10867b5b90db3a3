import LiveMarkup.Markup.Reference
import LiveMarkup.Markup.Tag
import LiveMarkup.Markup.Token
import LiveMarkup.Source.Diagnostic

/-!
# From a text to tokens

The lexer goes through a text with a cursor. `lexItem` reads one run of text, tag, comment,
section or declaration and never stands still, so `lexFrom` ends.
-/

namespace LiveMarkup

structure Cursor where
  location : Location
  rest : List Char

namespace Cursor

def skip (k : Cursor) (n : Nat) : Cursor := ⟨k.location.after (k.rest.take n), k.rest.drop n⟩

def skipSpace (k : Cursor) : Cursor := k.skip (k.rest.takeWhile isMarkupSpace).length

def spanTo (k stop : Cursor) : Span := ⟨k.location, stop.location⟩

def atEnd (k : Cursor) : Bool := k.rest.isEmpty

def startsWith (k : Cursor) (cs : List Char) : Bool := cs.isPrefixOf k.rest

theorem length_skip (k : Cursor) (n : Nat) : (k.skip n).rest.length = k.rest.length - n := by
  simp [skip]

theorem length_skipSpace_le (k : Cursor) : k.skipSpace.rest.length ≤ k.rest.length := by
  simp [skipSpace, skip]

end Cursor

/-- What a step of the lexer gives: tokens, errors, and where it ends. -/
structure LexStep where
  tokens : List Token
  errors : List Diagnostic
  next : Cursor

namespace LexStep

def andThen (s t : LexStep) : LexStep := ⟨s.tokens ++ t.tokens, s.errors ++ t.errors, t.next⟩

end LexStep

/-- A tag, comment, section or declaration starts here. Any other `<` is text. -/
def opensMarkup : List Char → Bool
  | '<' :: c :: _ => c.isAlpha || c = '/' || c = '!'
  | _ => false

/-- The run up to the next markup. -/
def lexText (k : Cursor) : LexStep :=
  let run := runUntil opensMarkup k.rest
  let stop := k.skip run.length
  ⟨[⟨.text (String.ofList (Reference.decode run)), k.spanTo stop⟩], [], stop⟩

/-- A construct that opens with `opening` characters and ends with `closing`. -/
def lexDelimited (opening : Nat) (closing : List Char) (lexeme : String → Lexeme)
    (unterminated : String) (k : Cursor) : LexStep :=
  let body := runUntil closing.isPrefixOf (k.rest.drop opening)
  let stop := k.skip (opening + body.length)
  if stop.atEnd then ⟨[], [.error (k.spanTo stop) unterminated], stop⟩
  else
    let next := stop.skip closing.length
    ⟨[⟨lexeme (String.ofList body), k.spanTo next⟩], [], next⟩

def nameRun (k : Cursor) : List Char := k.rest.takeWhile fun c => !endsName c

def lexEndTag (k : Cursor) : LexStep :=
  let start := (k.skip 2).skipSpace
  let name := String.ofList (nameRun start)
  let stop := (start.skip (nameRun start).length).skipSpace
  if stop.startsWith ['>'] then
    let next := stop.skip 1
    ⟨[⟨.endTag name, k.spanTo next⟩], [], next⟩
  else
    let e : Diagnostic :=
      .error (k.spanTo stop) ("Unexpected end of input in closing tag \"" ++ name ++ "\"")
    ⟨[], [e], stop⟩

/-- An unquoted value ends before white space, `>` and `/>`. -/
def endsUnquoted : List Char → Bool
  | [] => true
  | c :: rest => isMarkupSpace c || c = '>' || (c = '/' && ['>'].isPrefixOf rest)

def attributeValue (body : List Char) (span : Span) : Token :=
  ⟨.attributeValue (String.ofList (Reference.decode body)), span⟩

/-- The value after an equals sign. -/
def lexValue (k : Cursor) : LexStep :=
  match k.rest with
  | '"' :: rest => quoted '"' rest
  | '\'' :: rest => quoted '\'' rest
  | rest =>
    let body := runUntil endsUnquoted rest
    let next := k.skip body.length
    ⟨[attributeValue body (k.spanTo next)], [], next⟩
where
  quoted (q : Char) (rest : List Char) : LexStep :=
    let body := rest.takeWhile (· != q)
    let stop := k.skip (1 + body.length)
    if stop.atEnd then ⟨[], [.error (k.spanTo stop) "Unterminated attribute value"], stop⟩
    else
      let next := stop.skip 1
      ⟨[attributeValue body (k.spanTo next)], [], next⟩

/-- An attribute with its value if it has one. -/
def lexAttribute (k : Cursor) : LexStep :=
  let name := nameRun k
  let stop := k.skip name.length
  let step : LexStep := ⟨[⟨.attributeName (String.ofList name), k.spanTo stop⟩], [], stop.skipSpace⟩
  if step.next.startsWith ['='] then step.andThen (lexValue (step.next.skip 1).skipSpace)
  else step

def lexStray (c : Char) (k : Cursor) : LexStep :=
  let next := k.skip 1
  let e : Diagnostic :=
    .error (k.spanTo next) ("Unexpected character \"" ++ String.ofList [c] ++ "\" in tag")
  ⟨[], [e], next⟩

theorem length_lexValue_le (k : Cursor) : (lexValue k).next.rest.length ≤ k.rest.length := by
  unfold lexValue lexValue.quoted
  split <;> dsimp only <;> (try split) <;> simp only [Cursor.length_skip] <;> omega

theorem length_lexAttribute_lt {k : Cursor} {c : Char} {rest : List Char}
    (h : k.rest = c :: rest) (hc : endsName c = false) :
    (lexAttribute k).next.rest.length < k.rest.length := by
  have hname : 0 < (nameRun k).length := by simp [nameRun, h, hc]
  have hpos : 0 < k.rest.length := by simp [h]
  have hspace := (k.skip (nameRun k).length).length_skipSpace_le
  have hlen := k.length_skip (nameRun k).length
  unfold lexAttribute
  dsimp only
  split
  · dsimp only [LexStep.andThen]
    have h1 := length_lexValue_le ((k.skip (nameRun k).length).skipSpace.skip 1).skipSpace
    have h2 := ((k.skip (nameRun k).length).skipSpace.skip 1).length_skipSpace_le
    rw [Cursor.length_skip] at h2
    omega
  · dsimp only
    omega

def lexAttributes (k : Cursor) : LexStep :=
  match _ : k.skipSpace.rest with
  | [] => ⟨[], [], k.skipSpace⟩
  | c :: rest =>
    if c = '>' || (c = '/' && ['>'].isPrefixOf rest) then ⟨[], [], k.skipSpace⟩
    else if _ : endsName c then
      (lexStray c k.skipSpace).andThen (lexAttributes (lexStray c k.skipSpace).next)
    else (lexAttribute k.skipSpace).andThen (lexAttributes (lexAttribute k.skipSpace).next)
termination_by k.rest.length
decreasing_by
  · have := k.length_skipSpace_le
    have hpos : 0 < k.skipSpace.rest.length := by simp [*]
    simp only [lexStray, Cursor.length_skip]
    omega
  · have := k.length_skipSpace_le
    have := length_lexAttribute_lt (by assumption) (by simpa using ‹¬endsName _ = true›)
    omega

/-- The end tag of the raw element `name` starts here. -/
def closesRaw (name : String) (cs : List Char) : Bool :=
  let closing := '<' :: '/' :: name.toLower.toList
  (cs.take closing.length).map Char.toLower == closing

/-- The text inside a raw element, if there is any. -/
def lexRawText (name : String) (decode : List Char → List Char) (k : Cursor) : LexStep :=
  let run := runUntil (closesRaw name) k.rest
  let next := k.skip run.length
  if run.isEmpty then ⟨[], [], next⟩
  else ⟨[⟨.text (String.ofList (decode run)), k.spanTo next⟩], [], next⟩

/-- The text that directly follows the start tag of a raw element. -/
def lexContent (name : String) (k : Cursor) : LexStep :=
  match tagContent name with
  | .rawText => lexRawText name id k
  | .escapableText => lexRawText name Reference.decode k
  | .markup => ⟨[], [], k⟩

def isTagNameChar (c : Char) : Bool :=
  c.isAlphanum || c = '-' || c = ':' || c = '_' || c = '.'

def lexTagName (k : Cursor) : LexStep :=
  let name := nameRun (k.skip 1)
  let stop := k.skip (1 + name.length)
  let errors :=
    if name.all isTagNameChar then []
    else [.error (k.spanTo stop) ("Invalid tag name \"" ++ String.ofList name ++ "\"")]
  ⟨[⟨.startTag (String.ofList name), k.spanTo stop⟩], errors, stop⟩

/-- The end of the start tag that began at `start`, and the raw text behind it. -/
def lexTagEnd (start : Cursor) (name : String) (k : Cursor) : LexStep :=
  if k.startsWith ['/', '>'] then
    let next := k.skip 2
    ⟨[⟨.startTagEndVoid, k.spanTo next⟩], [], next⟩
  else if k.startsWith ['>'] then
    let next := k.skip 1
    LexStep.andThen ⟨[⟨.startTagEnd, k.spanTo next⟩], [], next⟩ (lexContent name next)
  else ⟨[], [.error (start.spanTo k) ("Unexpected end of input in tag \"" ++ name ++ "\"")], k⟩

def lexStartTag (k : Cursor) : LexStep :=
  let name := String.ofList (nameRun (k.skip 1))
  let opening := lexTagName k
  let inside := lexAttributes opening.next
  (opening.andThen inside).andThen (lexTagEnd k name inside.next)

def lexMarkup (k : Cursor) : LexStep :=
  match k.rest with
  | '<' :: '!' :: rest =>
    if "[CDATA[".toList.isPrefixOf rest then
      lexDelimited 9 "]]>".toList .cdata "Unterminated CDATA section" k
    else if "--".toList.isPrefixOf rest then
      lexDelimited 4 "-->".toList .comment "Unterminated comment" k
    else lexDelimited 2 ">".toList .doctype "Unterminated doctype" k
  | '<' :: '/' :: _ => lexEndTag k
  | _ => lexStartTag k

def lexItem (k : Cursor) : LexStep := if opensMarkup k.rest then lexMarkup k else lexText k

theorem length_lexAttributes_le (k : Cursor) :
    (lexAttributes k).next.rest.length ≤ k.rest.length := by
  fun_induction lexAttributes k with
  | case1 k h => exact k.length_skipSpace_le
  | case2 k c rest h hc => exact k.length_skipSpace_le
  | case3 k c rest h hc he ih =>
    have := k.length_skipSpace_le
    have hs : (lexStray c k.skipSpace).next.rest.length ≤ k.skipSpace.rest.length := by
      simp [lexStray, Cursor.length_skip]
    exact Nat.le_trans ih (Nat.le_trans hs this)
  | case4 k c rest h hc he ih =>
    have := k.length_skipSpace_le
    have hs := length_lexAttribute_lt h (by simpa using he)
    exact Nat.le_trans ih (Nat.le_trans (Nat.le_of_lt hs) this)

theorem length_lexContent_le (name : String) (k : Cursor) :
    (lexContent name k).next.rest.length ≤ k.rest.length := by
  unfold lexContent lexRawText
  split <;> dsimp only <;> (try split) <;> simp [Cursor.length_skip]

theorem length_lexTagEnd_le (start : Cursor) (name : String) (k : Cursor) :
    (lexTagEnd start name k).next.rest.length ≤ k.rest.length := by
  unfold lexTagEnd
  split
  · simp [Cursor.length_skip]
  · split
    · have h := length_lexContent_le name (k.skip 1)
      rw [Cursor.length_skip] at h
      simp only [LexStep.andThen]
      omega
    · exact Nat.le_refl _

theorem length_lexMarkup_lt {k : Cursor} (h : opensMarkup k.rest = true) :
    (lexMarkup k).next.rest.length < k.rest.length := by
  have hpos : 2 ≤ k.rest.length := by
    unfold opensMarkup at h
    split at h
    · rename_i heq
      simp [heq]
    · cases h
  have delimited : ∀ opening closing lexeme message, 0 < opening →
      (lexDelimited opening closing lexeme message k).next.rest.length < k.rest.length := by
    intro opening closing lexeme message hopen
    unfold lexDelimited
    dsimp only
    split <;> simp only [Cursor.length_skip] <;> omega
  unfold lexMarkup
  split
  · split
    · exact delimited _ _ _ _ (by decide)
    · split
      · exact delimited _ _ _ _ (by decide)
      · exact delimited _ _ _ _ (by decide)
  · have h1 := (k.skip 2).length_skipSpace_le
    rw [Cursor.length_skip] at h1
    unfold lexEndTag
    dsimp only
    have h2 := Cursor.length_skipSpace_le
      ((k.skip 2).skipSpace.skip (nameRun (k.skip 2).skipSpace).length)
    rw [Cursor.length_skip] at h2
    split
    · simp only [Cursor.length_skip]
      omega
    · dsimp only
      omega
  · unfold lexStartTag
    dsimp only [LexStep.andThen]
    have h1 := length_lexTagEnd_le k (String.ofList (nameRun (k.skip 1)))
      (lexAttributes (lexTagName k).next).next
    have h2 := length_lexAttributes_le (lexTagName k).next
    have h3 : (lexTagName k).next.rest.length < k.rest.length := by
      simp only [lexTagName, Cursor.length_skip]
      omega
    omega

theorem length_lexItem_lt {k : Cursor} (h : k.rest ≠ []) :
    (lexItem k).next.rest.length < k.rest.length := by
  unfold lexItem
  split
  · exact length_lexMarkup_lt (by assumption)
  · rename_i hm
    obtain ⟨c, rest, hk⟩ := List.exists_cons_of_ne_nil h
    have hrun : 0 < (runUntil opensMarkup k.rest).length := by
      rw [hk] at hm ⊢
      simp only [Bool.not_eq_true] at hm
      simp [runUntil, hm]
    have hlen : 0 < k.rest.length := by simp [hk]
    simp only [lexText, Cursor.length_skip]
    omega

/-- The tokens and errors of the text from a cursor on. -/
def lexFrom (k : Cursor) : List Token × List Diagnostic :=
  if _ : k.rest = [] then ([⟨.endOfSource, k.spanTo k⟩], [])
  else
    let (tokens, errors) := lexFrom (lexItem k).next
    ((lexItem k).tokens ++ tokens, (lexItem k).errors ++ errors)
termination_by k.rest.length
decreasing_by exact length_lexItem_lt (by assumption)

/-- The tokens and errors of a text. Spans refer to the text with unified line ends. -/
structure Lexed where
  source : Source
  tokens : List Token
  errors : List Diagnostic

def lex (text url : String) : Lexed :=
  let content := unifyLineEnds text.toList
  let (tokens, errors) := lexFrom ⟨.start, content⟩
  ⟨⟨url, String.ofList content⟩, tokens, errors⟩

end LiveMarkup
