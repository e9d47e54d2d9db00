import SymbolOutline.Document
import SymbolOutline.Symbol

/-
Asking a provider for the symbols of a document. A provider that is not ready answers with no
symbols, and is asked again after a while, each time after a longer one. The world that the provider
lives in is a parameter: asking and waiting may change it, and it says whether the answer is still
wanted.
-/

namespace SymbolOutline

/-- A length of time. -/
structure Delay where
  nanoseconds : Nat
deriving DecidableEq, Repr

namespace Delay

/-- A number of milliseconds. -/
def ofMilliseconds (n : Nat) : Delay := ⟨n * 1000000⟩

/-- The number of whole seconds. -/
def seconds (d : Delay) : Nat := d.nanoseconds / 1000000000

/-- What is left besides whole seconds. -/
def subsecond (d : Delay) : Nat := d.nanoseconds % 1000000000

/-- A multiple of a delay, unless its seconds are more than a 64-bit word holds. -/
def times? (d : Delay) (n : Nat) : Option Delay :=
  let product : Delay := ⟨d.nanoseconds * n⟩
  if product.seconds < Nat.pow 2 64 then some product else none

end Delay

/-- How often a provider is asked, and how long it is given in between. -/
structure RetryPolicy where
  maxAttempts : Nat
  baseDelay : Delay
deriving DecidableEq, Repr

namespace RetryPolicy

/-- The policy where none is chosen. -/
def standard : RetryPolicy := ⟨10, .ofMilliseconds 300⟩

/-- How long to wait after an attempt, the first of which is number one. -/
def delay? (p : RetryPolicy) (attempt : Nat) : Option Delay := p.baseDelay.times? attempt

/-- How often a provider is asked at most: at least once. -/
def attempts (p : RetryPolicy) : Nat := max p.maxAttempts 1

end RetryPolicy

/-- What goes wrong while symbols are fetched. -/
inductive FetchError where
  /-- The provider never had symbols, and that is an error. -/
  | unavailable (document : Document) (attempts : Nat)
  /-- The provider failed. -/
  | provider (cause : String)
  /-- A delay is longer than can be waited for. -/
  | delayTooLong
deriving DecidableEq, Repr

namespace FetchError

/-- An error in words. -/
def message : FetchError → String
  | unavailable document attempts =>
    "no symbols available for '" ++ document.uri ++ "' after " ++ toString attempts ++ " attempts"
  | provider cause => "symbol provider error: " ++ cause
  | delayTooLong => "retry delay out of range"

end FetchError

/-- How a fetch ends that does not go wrong. -/
inductive FetchOutcome where
  | symbols (found : Forest Symbol)
  /-- No attempt brought symbols. -/
  | empty
  /-- The symbols are no longer wanted. -/
  | superseded
deriving DecidableEq

/-- A provider and the world around it. -/
structure Source (World : Type) where
  ask : World → Except String (Forest Symbol) × World
  wait : Delay → World → World
  isWanted : World → Bool

/-- The end of a fetch, and what was done on the way. -/
structure Fetched (World : Type) where
  outcome : Except FetchError FetchOutcome
  /-- How often the provider was asked. -/
  calls : Nat
  /-- How long it was given each time. -/
  delays : List Delay
  world : World

namespace Source

variable {World : Type}

/-- Asks until there are symbols, with `left` attempts left, the next of which is number `attempt`. -/
def fetchFrom (source : Source World) (policy : RetryPolicy) (document : Document) (debug : Bool)
    (attempt : Nat) : (left : Nat) → World → Fetched World
  | 0, world =>
    ⟨if debug then .error (.unavailable document policy.attempts) else .ok .empty, 0, [], world⟩
  | left + 1, world =>
    if !source.isWanted world then ⟨.ok .superseded, 0, [], world⟩
    else
      match source.ask world with
      | (.error cause, world) => ⟨.error (.provider cause), 1, [], world⟩
      | (.ok (t :: ts), world) => ⟨.ok (.symbols (t :: ts)), 1, [], world⟩
      | (.ok [], world) =>
        if left = 0 then
          let last := fetchFrom source policy document debug (attempt + 1) left world
          { last with calls := last.calls + 1 }
        else
          match policy.delay? attempt with
          | none => ⟨.error .delayTooLong, 1, [], world⟩
          | some delay =>
            let later :=
              fetchFrom source policy document debug (attempt + 1) left (source.wait delay world)
            { later with calls := later.calls + 1, delays := delay :: later.delays }

/-- Asks for the symbols of a document as often as a policy allows. In debugging it is an error if
there are none. -/
def fetch (source : Source World) (policy : RetryPolicy) (document : Document) (debug : Bool)
    (world : World) : Fetched World :=
  source.fetchFrom policy document debug 1 policy.attempts world

end Source

end SymbolOutline
