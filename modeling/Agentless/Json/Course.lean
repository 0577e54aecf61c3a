import Agentless.Json.Grammar
import Mathlib.Logic.Relation

/-!
# The places that a text leads through

A place is what is left of a text, with the containers that are open there and what may come next.
A step takes one symbol of the grammar and the blanks after it: a string, a number or a word, a
container that opens or closes, a comma or a colon. The steps of a text form one chain, so it has
one place at most where no symbol comes next.
-/

namespace Agentless.Json.Course

open Ascii

inductive Awaits where
  | value | key | colon | next
deriving DecidableEq, Repr

inductive Container where
  | array | object
deriving DecidableEq, Repr

namespace Container

def closer : Container → UInt8
  | array => rightBracket
  | object => rightBrace

/-- What an item starts with. -/
def item : Container → Awaits
  | array => .value
  | object => .key

end Container

structure Place where
  rest : Bytes
  opened : List Container
  awaits : Awaits
deriving DecidableEq, Repr

namespace Place

/-- The place after a symbol and the blanks that follow it. -/
def after (opened : List Container) (awaits : Awaits) (rest : Bytes) : Place :=
  ⟨Grammar.skipSpace rest, opened, awaits⟩

/-- An empty container is one symbol. -/
def opens (opened : List Container) (container : Container) (rest : Bytes) : Option Place :=
  let inside := after (container :: opened) container.item rest
  if opened.length ≥ maxDepth then none
  else if inside.rest.head? = some container.closer then
    some (after opened .next inside.rest.tail)
  else some inside

variable {φ : Type}

/-- The place after the symbol at a place. -/
def step (f64 : F64 φ) : Place → Option Place
  | ⟨rest, opened, .value⟩ =>
    if rest.head? = some quote then
      (Grammar.chars rest.tail).map fun (_, rest) => after opened .next rest
    else if rest.head? = some leftBracket then opens opened .array rest.tail
    else if rest.head? = some leftBrace then opens opened .object rest.tail
    else (Grammar.scalar f64 rest).map fun (_, rest) => after opened .next rest
  | ⟨rest, opened, .key⟩ =>
    if rest.head? = some quote then
      (Grammar.chars rest.tail).map fun (_, rest) => after opened .colon rest
    else none
  | ⟨rest, opened, .colon⟩ =>
    if rest.head? = some colon then some (after opened .value rest.tail) else none
  | ⟨_, [], .next⟩ => none
  | ⟨rest, container :: opened, .next⟩ =>
    if rest.head? = some container.closer then some (after opened .next rest.tail)
    else if rest.head? = some comma then
      some (after (container :: opened) container.item rest.tail)
    else none

end Place

variable {φ : Type} (f64 : F64 φ) (text : Bytes)

/-- The text leads to the place. -/
def Reached : Place → Prop :=
  Relation.ReflTransGen (fun place next => place.step f64 = some next) (.after [] .value text)

/-- The text leads to the place, where no symbol comes next. -/
structure Stuck (place : Place) : Prop where
  reached : Reached f64 text place
  stuck : place.step f64 = none

variable {f64 text}

theorem Reached.step {place next : Place} (h : Reached f64 text place)
    (hstep : place.step f64 = some next) : Reached f64 text next := h.tail hstep

/-- A text has one place at most where no symbol comes next. -/
theorem Stuck.unique {place other : Place} (h : Stuck f64 text place)
    (hother : Stuck f64 text other) : place = other := by
  have hunique : Relator.RightUnique fun place next : Place => place.step f64 = some next :=
    fun _ _ _ hnext hnext' => Option.some.inj (hnext.symm.trans hnext')
  have hlast {place next : Place} (hstuck : place.step f64 = none)
      (hfurther : Relation.ReflTransGen (fun place next => place.step f64 = some next) place next) :
      place = next := by
    rcases hfurther.cases_head with rfl | ⟨next, hnext, -⟩
    · rfl
    · rw [hstuck] at hnext
      cases hnext
  rcases Relation.ReflTransGen.total_of_right_unique hunique h.reached hother.reached with
    hfurther | hfurther
  · exact hlast h.stuck hfurther
  · exact (hlast hother.stuck hfurther).symm

/-! ## In a string -/

/-- What is left after a character of a string, of which a pair of surrogates is two. -/
def character : Bytes → Option Bytes
  | [] => none
  | byte :: rest =>
    if byte = backslash then
      match Grammar.unit rest with
      | some (_, rest) => some rest
      | none =>
        match rest with
        | [] => none
        | letter :: rest => (Grammar.unescaped letter).map fun _ => rest
    else if endsChunk byte then none
    else some rest

/-- The characters of a string lead from one rest of the text to another. -/
def Characters : Bytes → Bytes → Prop :=
  Relation.ReflTransGen fun input rest => character input = some rest

/-- The text leads to a string, and the string with the characters that are in it to `rest`. -/
def InString (f64 : F64 φ) (text begin rest : Bytes) : Prop :=
  ∃ opened, (Reached f64 text ⟨quote :: begin, opened, .value⟩ ∨
    Reached f64 text ⟨quote :: begin, opened, .key⟩) ∧ Characters begin rest

/-- Bytes that end no chunk of a string are characters of it. -/
theorem characters_append {chunk : Bytes} (hchunk : ∀ byte ∈ chunk, endsChunk byte = false)
    (rest : Bytes) : Characters (chunk ++ rest) rest := by
  induction chunk with
  | nil => exact .refl
  | cons byte chunk ih =>
    obtain ⟨hbyte, hchunk⟩ := List.forall_mem_cons.mp hchunk
    have hback : byte ≠ backslash := by
      rintro rfl
      exact absurd hbyte (by decide)
    refine .head ?_ (ih hchunk)
    simp [character, hback, hbyte]

end Agentless.Json.Course
