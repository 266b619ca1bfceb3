import Formula.Token.Scanner

/-!
A reader of tokens is a value: it has an answer, has failed, or asks for one more token and says
how it goes on. What it asks for and when is thus fixed before any source of tokens is at hand,
and one function, `Reader.run`, lets it read from a text or from a list. A source that fails ends
the run at once with its own error.
-/

namespace Formula

inductive Reader (α : Type) where
  | done (value : α)
  | fail (error : ParseError)
  /-- Asks for the next token; at the end of the tokens it is given nothing. -/
  | ask (next : Option Token → Reader α)

namespace Reader

variable {α β γ : Type}

/-- Goes on with the answer of a reader. -/
protected def bind : Reader α → (α → Reader β) → Reader β
  | done a, f => f a
  | fail e, _ => fail e
  | ask next, f => ask fun token => (next token).bind f

instance : Monad Reader where
  pure := done
  bind := Reader.bind

@[simp] theorem pure_eq (a : α) : (pure a : Reader α) = done a := rfl

@[simp] theorem done_bind (a : α) (f : α → Reader β) : done a >>= f = f a := rfl

@[simp] theorem fail_bind (e : ParseError) (f : α → Reader β) : fail e >>= f = fail e := rfl

@[simp] theorem ask_bind (next : Option Token → Reader α) (f : α → Reader β) :
    ask next >>= f = ask fun token => next token >>= f := rfl

theorem bind_done (r : Reader α) : r >>= done = r := by
  induction r with
  | done a => rfl
  | fail e => rfl
  | ask next ih => simp [ih]

theorem bind_bind (r : Reader α) (f : α → Reader β) (g : β → Reader γ) :
    r >>= f >>= g = r >>= fun a => f a >>= g := by
  induction r with
  | done a => rfl
  | fail e => rfl
  | ask next ih => simp [ih]

instance : LawfulMonad Reader :=
  LawfulMonad.mk' _ bind_done (fun _ _ => rfl) bind_bind

/-- Asks for one token and gives it back. -/
def token : Reader (Option Token) := ask done

end Reader

/-- Something that gives tokens one at a time, nothing at its end, and may fail. -/
class TokenSource (σ : Type) where
  next : σ → Except ParseError (Option Token) × σ

/-- A list of tokens, in which a failure may stand at any place. -/
instance : TokenSource (List (Except ParseError Token)) where
  next
    | [] => (.ok none, [])
    | .ok token :: rest => (.ok (some token), rest)
    | .error e :: rest => (.error e, rest)

/-- A text, whose tokens are scanned only when they are asked for. -/
instance : TokenSource Scanner where
  next s :=
    let (lexeme, s) := s.next
    (lexeme.map (Option.map Lexeme.token), s)

/-- Reads from a source and gives the answer with what is left of the source. -/
def Reader.run {σ α : Type} [TokenSource σ] : Reader α → σ → Except ParseError α × σ
  | .done a, source => (.ok a, source)
  | .fail e, source => (.error e, source)
  | .ask next, source =>
    match TokenSource.next source with
    | (.ok token, source) => (next token).run source
    | (.error e, source) => (.error e, source)

end Formula
