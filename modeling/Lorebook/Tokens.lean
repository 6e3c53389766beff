import Lorebook.Bytes.Utf8
import Lorebook.Table

set_option autoImplicit false

/-!
Token counts. The plain count takes four code points for a token; `tokenize` cuts a text into those
tokens. An estimator may also keep its answers.
-/

namespace Lorebook

structure Token where
  id : Nat
  text : Bytes
  deriving DecidableEq, Repr

namespace Tokens

/-- Four code points make a token. -/
def estimate (s : Bytes) : Int := (Utf8.codePoints s + 3) / 4

/-- `tokenize` within the token `id`, which has begun `n` code points and whose bytes, latest first,
are `seen`. A token ends only where a fifth code point begins, or with the text. -/
def tokenizeFrom (id n : Nat) (seen : Bytes) : Bytes → List Token
  | [] => if seen.isEmpty then [] else [⟨id, seen.reverse⟩]
  | b :: r =>
    if Utf8.isContinuation b then tokenizeFrom id n (b :: seen) r
    else if n = 4 then ⟨id, seen.reverse⟩ :: tokenizeFrom (id + 1) 1 [b] r
    else tokenizeFrom id (n + 1) (b :: seen) r

def tokenize (s : Bytes) : List Token := tokenizeFrom 0 0 [] s

def chunks (s : Bytes) : List Bytes := (tokenize s).map (·.text)

end Tokens

/-- A way to count tokens: a function of the text, or one whose answers are kept, up to `limit` of
them, in a memo that is emptied when it is full. -/
inductive Estimator where
  | function (f : Bytes → Int)
  | caching (inner : Estimator) (limit : Nat) (memo : Table Int)

namespace Estimator

def plain : Estimator := .function Tokens.estimate

def defaultLimit : Nat := 4096

def estimate : Estimator → Bytes → Int × Estimator
  | .function f, s => (f s, .function f)
  | .caching inner limit memo, s =>
    match Table.get? s memo with
    | some n => (n, .caching inner limit memo)
    | none =>
      let (n, inner) := inner.estimate s
      let kept := if limit ≤ memo.length then [] else memo
      (n, .caching inner limit (Table.put s n kept))

def size : Estimator → Nat
  | .function _ => 0
  | .caching _ _ memo => memo.length

def value : Estimator → Bytes → Int
  | .function f => f
  | .caching inner _ _ => inner.value

end Estimator
end Lorebook
