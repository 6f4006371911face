import DesignAtlas.Token.Reader

/-! # Requests to a reader

The operations of a reader as requests, which are made one after the other in any order
(`converse`). Some of them are about tokens only and can be made to anything that hands out tokens;
the others read characters, or tokens without regard to the one looked at. -/

namespace DesignAtlas

/-- What may be asked about the tokens of a reader. -/
inductive TokenRequest where
  /-- To look at the next token. -/
  | peek
  /-- To take the next token. -/
  | pop
  /-- To take the next token if it has the payload `want`. -/
  | tryPop (want : Payload)
  /-- To take the tokens up to the parenthesis that closes `opening`. -/
  | popBalanced (opening : Token)
  deriving DecidableEq, Repr

/-- What may be asked of a reader, character by character or token by token. -/
inductive Reader.Request where
  | token (q : TokenRequest)
  /-- To scan the next token of the text not read. -/
  | next
  | peekChar
  | popChar
  deriving DecidableEq, Repr

/-- What is answered to a request. -/
inductive Answer where
  | token (t : Option Token)
  /-- The span between two parentheses, and the span of the second. -/
  | enclosed (s : Option (Span × Span))
  | char (c : Option Char)
  deriving DecidableEq, Repr

/-- The parenthesis whose end is asked for. -/
def Reader.Request.opening? : Request → Option Token
  | .token (.popBalanced opening) => some opening
  | _ => none

namespace Answer

/-- The token that is answered. -/
def tokens : Answer → List Token
  | .token t => t.toList
  | _ => []

/-- The spans that are answered, that of a token included. -/
def spans : Answer → List Span
  | .token t => t.toList.map Token.span
  | .enclosed (some s) => [s.1, s.2]
  | _ => []

end Answer

/-- The answers to requests that are made one after the other, and the state behind them. -/
def converse {σ ρ : Type} (ask : σ → ρ → Answer × σ) (s : σ) : List ρ → List Answer × σ
  | [] => ([], s)
  | q :: qs =>
    let rest := converse ask (ask s q).2 qs
    ((ask s q).1 :: rest.1, rest.2)

namespace Reader

/-- What a reader does when it is asked about its tokens. -/
def askToken (r : Reader) : TokenRequest → Answer × Reader
  | .peek => (.token r.peek.1, r.peek.2)
  | .pop => (.token r.pop.1, r.pop.2)
  | .tryPop want => (.token (r.tryPop want).1, (r.tryPop want).2)
  | .popBalanced opening => (.enclosed (r.popBalanced opening).1, (r.popBalanced opening).2)

/-- What a reader does when it is asked. -/
def ask (r : Reader) : Request → Answer × Reader
  | .token q => r.askToken q
  | .next => (.token r.next.1, r.next.2)
  | .peekChar => (.char r.peekChar?, r)
  | .popChar => (.char r.popChar.1, r.popChar.2)

theorem popBalanced_eq (opening : Token) (r : Reader) :
    (r.popBalanced opening).1 = (r.popClosing 0).1.map
        (fun close => (⟨opening.span.limit, close.span.start⟩, close.span)) ∧
      (r.popBalanced opening).2 = (r.popClosing 0).2 := by
  unfold popBalanced
  rcases r.popClosing 0 with ⟨_ | tok, s⟩ <;> exact ⟨rfl, rfl⟩

end Reader

end DesignAtlas
