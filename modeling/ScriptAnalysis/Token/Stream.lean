import ScriptAnalysis.Text.Slice
import ScriptAnalysis.Token.Lexeme
import ScriptAnalysis.Syntax.Error

/-!
# Tokens and comments of a text

The pieces of a text become tokens, each with its place, its characters and whether a line feed stands
between it and the token before it. Comments are kept apart from the tokens. The end of the text is a
token of its own. The only error is a block comment that is not closed.
-/

namespace ScriptAnalysis

open Text

/-- A token at its place. -/
structure Token where
  /-- What the token is. -/
  kind : TokenKind
  /-- Where it is. -/
  span : Span
  /-- Whether a line feed stands between the token before it, or the start of the text, and it. -/
  afterLineBreak : Bool
  /-- Its characters. -/
  text : String
  deriving DecidableEq, Repr

/-- The two forms of a comment. -/
inductive CommentKind where
  /-- From two slashes to the end of the line. -/
  | line
  /-- Between delimiters. -/
  | block
  deriving DecidableEq, Repr

/-- A comment at its place. -/
structure Comment where
  /-- The form of the comment. -/
  kind : CommentKind
  /-- Where it is. -/
  span : Span
  deriving DecidableEq, Repr

namespace Comment

/-- `cs` without `p` at its start, if it is there. -/
def withoutStart (p cs : List Char) : List Char := if p.isPrefixOf cs then cs.drop p.length else cs

/-- `cs` without `p` at its end, if it is there. -/
def withoutEnd (p cs : List Char) : List Char :=
  if p.isSuffixOf cs then cs.take (cs.length - p.length) else cs

/-- The comment's text in `source` without its delimiters; a comment that is not closed has only the
opening one. -/
def body (comment : Comment) (source : List Char) : List Char :=
  let cs := (slice source comment.span.start comment.span.stop).getD []
  match comment.kind with
  | .line => withoutStart ['/', '/'] cs
  | .block => withoutEnd ['*', '/'] (withoutStart ['/', '*'] cs)

end Comment

/-- What a text is read as. -/
structure TokenStream where
  /-- The tokens before the end of the text. -/
  tokens : List Token
  /-- The end of the text. -/
  ending : Token
  /-- The comments. -/
  comments : List Comment
  /-- The comment that is not closed, if there is one. -/
  errors : List Syntax.Error
  deriving DecidableEq, Repr

namespace TokenStream

/-- The tokens, the end of the text last. -/
def all (stream : TokenStream) : List Token := stream.tokens ++ [stream.ending]

/-- The stream with a token in front. -/
def consToken (token : Token) (stream : TokenStream) : TokenStream :=
  { stream with tokens := token :: stream.tokens }

/-- The stream with a comment in front. -/
def consComment (comment : Comment) (stream : TokenStream) : TokenStream :=
  { stream with comments := comment :: stream.comments }

/-- The stream with an error in front. -/
def consError (error : Syntax.Error) (stream : TokenStream) : TokenStream :=
  { stream with errors := error :: stream.errors }

/-- The stream of the pieces from an offset on; `lineBreak` says whether a line feed stands between
the last token and that offset. -/
def ofLexemes (offset : Nat) (lineBreak : Bool) : List Lexeme → TokenStream
  | [] => ⟨[], ⟨.endOfFile, .point offset, lineBreak, ""⟩, [], []⟩
  | lexeme :: lexemes =>
    let stop := offset + byteLength lexeme.chars
    let span : Span := ⟨offset, stop⟩
    let lineBreak' := lineBreak || lexeme.chars.contains '\n'
    match lexeme.cls with
    | .layout => ofLexemes stop lineBreak' lexemes
    | .lineComment => (ofLexemes stop lineBreak' lexemes).consComment ⟨.line, span⟩
    | .blockComment true => (ofLexemes stop lineBreak' lexemes).consComment ⟨.block, span⟩
    | .blockComment false =>
      ((ofLexemes stop lineBreak' lexemes).consComment ⟨.block, span⟩).consError
        ⟨.commentEndExpected, .point stop⟩
    | .token kind =>
      (ofLexemes stop false lexemes).consToken
        ⟨kind, span, lineBreak, String.ofList lexeme.chars⟩

/-- The tokens and comments of a text. -/
def ofChars (cs : List Char) (recover : Lexeme.Recovery := .standard) : TokenStream :=
  ofLexemes 0 false (lexemes cs recover)

end TokenStream

end ScriptAnalysis
