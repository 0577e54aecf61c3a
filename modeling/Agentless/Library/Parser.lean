import Agentless.Library.Text

/-!
# Readers of a list of symbols

A `Parser` reads a value off the front of a list and takes at least one symbol, so that a
recursion over what is left ends. `sepBy` reads a separated list up to its closing symbol;
`sepByTail` is what is left to read of such a list after one of its items.
-/

namespace Agentless

structure Parser (σ α : Type) where
  run : List σ → Option (α × List σ)
  shrinks : ∀ {input value rest}, run input = some (value, rest) → rest.length < input.length

namespace Parser

variable {σ α β : Type}

section SepBy

variable (blank : σ → Bool)

theorem length_dropWhile_tail {rest rest' : List σ} {symbol : σ}
    (h : rest.dropWhile blank = symbol :: rest') : rest'.length < rest.length := by
  have hle := (List.dropWhile_suffix blank : rest.dropWhile blank <:+ rest).length_le
  rw [h] at hle
  exact hle

theorem length_dropWhile_le (rest : List σ) : (rest.dropWhile blank).length ≤ rest.length :=
  (List.dropWhile_suffix blank).length_le

theorem dropWhile_append_all {before : List σ} (hbefore : before.all blank) (rest : List σ) :
    (before ++ rest).dropWhile blank = rest.dropWhile blank :=
  List.dropWhile_append_of_pos (List.all_eq_true.mp hbefore)

variable [DecidableEq σ] (separator closer : σ)

/-- Items with a separator between them and the closing symbol after the last, with blanks after
each item and each separator. -/
def sepBy (item : Parser σ α) (input : List σ) : Option (List α × List σ) :=
  match hitem : item.run input with
  | none => none
  | some (value, rest) =>
    have := item.shrinks hitem
    match hsymbol : rest.dropWhile blank with
    | [] => none
    | symbol :: rest' =>
      have := length_dropWhile_tail blank hsymbol
      if symbol = closer then some ([value], rest')
      else if symbol = separator then
        (sepBy item (rest'.dropWhile blank)).map fun (values, rest) => (value :: values, rest)
      else none
termination_by input.length
decreasing_by
  have := length_dropWhile_le blank rest'
  omega

/-- What follows an item: the closing symbol, or a separator and more items. -/
def sepByTail (item : Parser σ α) (input : List σ) : Option (List α × List σ) :=
  match input.dropWhile blank with
  | [] => none
  | symbol :: rest =>
    if symbol = closer then some ([], rest)
    else if symbol = separator then sepBy blank separator closer item (rest.dropWhile blank)
    else none

theorem sepBy_eq (item : Parser σ α) (input : List σ) :
    sepBy blank separator closer item input = (item.run input).bind fun (value, rest) =>
      (sepByTail blank separator closer item rest).map fun (values, rest) =>
        (value :: values, rest) := by
  rw [sepBy]
  split
  · simp [*]
  · rename_i value rest hitem
    unfold sepByTail
    simp only [hitem, Option.bind_some]
    cases rest.dropWhile blank with
    | nil => rfl
    | cons symbol rest' =>
      dsimp only
      split_ifs <;> rfl

theorem sepBy_shrinks (item : Parser σ α) {input rest : List σ} {values : List α}
    (h : sepBy blank separator closer item input = some (values, rest)) :
    rest.length < input.length := by
  induction hlength : input.length using Nat.strong_induction_on generalizing input values with
  | _ size ih =>
    rw [sepBy_eq] at h
    obtain ⟨⟨value, after⟩, hitem, h⟩ := Option.bind_eq_some_iff.mp h
    obtain ⟨⟨values', rest'⟩, htail, heq⟩ := Option.map_eq_some_iff.mp h
    obtain ⟨-, rfl⟩ := Prod.mk.injEq .. ▸ heq
    have hafter := item.shrinks hitem
    unfold sepByTail at htail
    split at htail
    · cases htail
    · rename_i symbol rest'' hsymbol
      have hsymbol := length_dropWhile_tail blank hsymbol
      have hblank := length_dropWhile_le blank rest''
      split_ifs at htail
      · obtain ⟨-, rfl⟩ := Prod.mk.injEq .. ▸ Option.some.injEq .. ▸ htail
        omega
      · have := ih _ (by omega) htail rfl
        omega

/-- What an item reader keeps of its input and gives of its values, a list of its items does. -/
theorem sepBy_invariant {keeps : List σ → Prop} {gives : α → Prop} (item : Parser σ α)
    (hitem : ∀ {input value rest}, keeps input → item.run input = some (value, rest) →
      gives value ∧ keeps rest)
    (hblank : ∀ {input}, keeps input → keeps (input.dropWhile blank))
    (hsymbol : ∀ {symbol rest}, symbol = separator ∨ symbol = closer → keeps (symbol :: rest) →
      keeps rest) {input rest : List σ} {values : List α} (hkeeps : keeps input)
    (h : sepBy blank separator closer item input = some (values, rest)) :
    (∀ value ∈ values, gives value) ∧ keeps rest := by
  induction hlength : input.length using Nat.strong_induction_on generalizing input values with
  | _ size ih =>
    rw [sepBy_eq] at h
    obtain ⟨⟨value, after⟩, hvalue, h⟩ := Option.bind_eq_some_iff.mp h
    obtain ⟨⟨values', rest'⟩, htail, heq⟩ := Option.map_eq_some_iff.mp h
    obtain ⟨rfl, rfl⟩ := Prod.mk.injEq .. ▸ heq
    obtain ⟨hgives, hafter⟩ := hitem hkeeps hvalue
    have hshrinks := item.shrinks hvalue
    unfold sepByTail at htail
    split at htail
    · cases htail
    · rename_i symbol tail hnext
      have htailKeeps : keeps (symbol :: tail) := hnext ▸ hblank hafter
      have hless := length_dropWhile_tail blank hnext
      have hle := length_dropWhile_le blank tail
      split_ifs at htail with hcloser hseparator
      · obtain ⟨rfl, rfl⟩ := Prod.mk.injEq .. ▸ Option.some.injEq .. ▸ htail
        exact ⟨by simpa using hgives, hsymbol (.inr hcloser) htailKeeps⟩
      · have hrest := ih _ (by omega) (hblank (hsymbol (.inl hseparator) htailKeeps)) htail rfl
        refine ⟨fun other hother => ?_, hrest.2⟩
        rcases List.mem_cons.mp hother with rfl | hother
        · exact hgives
        · exact hrest.1 other hother

/-! A text that a parser reads as a value, wherever it is followed by something that ends it. -/

/-- Read after blanks and before a rest that ends it, the text gives the value and leaves the rest,
up to blanks. -/
def Reads (stops : List σ → Prop) (item : Parser σ α) (value : α) (text : List σ) : Prop :=
  ∀ rest, stops rest → ∃ rest', item.run ((text ++ rest).dropWhile blank) = some (value, rest') ∧
    rest'.dropWhile blank = rest.dropWhile blank

/-- A spelling of a list up to its closing symbol: the items' texts, with blanks around each. -/
inductive Listed (spells : α → List σ → Prop) : List α → List σ → Prop where
  | last {value : α} {before text after : List σ} (hbefore : before.all blank)
      (hvalue : spells value text) (hafter : after.all blank) :
      Listed spells [value] (before ++ (text ++ (after ++ [closer])))
  | cons {value : α} {values : List α} {before text after body : List σ}
      (hbefore : before.all blank) (hvalue : spells value text) (hafter : after.all blank)
      (hvalues : Listed spells values body) :
      Listed spells (value :: values) (before ++ (text ++ (after ++ separator :: body)))

omit [DecidableEq σ] in
theorem Listed.map {blank : σ → Bool} {separator closer : σ} {spells : β → List σ → Prop}
    {f : α → β} {values : List α} {body : List σ}
    (h : Listed blank separator closer (fun value => spells (f value)) values body) :
    Listed blank separator closer spells (values.map f) body := by
  induction h with
  | last hbefore hvalue hafter => exact .last hbefore hvalue hafter
  | cons hbefore hvalue hafter _ ih => exact .cons hbefore hvalue hafter ih

/-- Blanks and then a symbol of the list end an item. -/
def Ends (stops : List σ → Prop) : Prop :=
  ∀ (after : List σ) (symbol : σ) (rest : List σ), after.all blank →
    symbol = separator ∨ symbol = closer → stops (after ++ symbol :: rest)

section Listed

variable {blank separator closer}
variable {stops : List σ → Prop} {item : Parser σ α} {spells : α → List σ → Prop}

theorem sepBy_item (hspells : ∀ value text, spells value text → Reads blank stops item value text)
    (hends : Ends blank separator closer stops)
    (hseparator : blank separator = false) (hcloser : blank closer = false)
    (hne : separator ≠ closer) {value : α} {before text after : List σ} {symbol : σ}
    (hbefore : before.all blank) (hvalue : spells value text) (hafter : after.all blank)
    (hsymbol : symbol = separator ∨ symbol = closer) (tail : List σ) :
    sepBy blank separator closer item
        ((before ++ (text ++ (after ++ symbol :: tail))).dropWhile blank) =
      (if symbol = closer then some ([], tail)
        else sepBy blank separator closer item (tail.dropWhile blank)).map
          fun (values, rest) => (value :: values, rest) := by
  have hblank : ¬ blank symbol := by rcases hsymbol with rfl | rfl <;> simp [hseparator, hcloser]
  obtain ⟨rest', hrun, hrest'⟩ := hspells value text hvalue _ (hends after symbol tail hafter hsymbol)
  rw [dropWhile_append_all blank hbefore, sepBy_eq, hrun, Option.bind_some]
  unfold sepByTail
  dsimp only
  rw [hrest', dropWhile_append_all blank hafter, List.dropWhile_cons_of_neg hblank]
  rcases hsymbol with rfl | rfl
  · simp [hne]
  · simp

/-- A list is read back from any of its spellings. -/
theorem sepBy_listed (hspells : ∀ value text, spells value text → Reads blank stops item value text)
    (hends : Ends blank separator closer stops)
    (hseparator : blank separator = false) (hcloser : blank closer = false)
    (hne : separator ≠ closer) {values : List α} {body : List σ}
    (h : Listed blank separator closer spells values body) (rest : List σ) :
    sepBy blank separator closer item ((body ++ rest).dropWhile blank) = some (values, rest) := by
  induction h with
  | last hbefore hvalue hafter =>
    have hlast := sepBy_item hspells hends hseparator hcloser hne hbefore hvalue hafter
      (.inr rfl) rest
    rw [if_pos rfl] at hlast
    simpa using hlast
  | @cons value values before text after body hbefore hvalue hafter hvalues ih =>
    have hcons := sepBy_item hspells hends hseparator hcloser hne hbefore hvalue hafter
      (.inl rfl) (body ++ rest)
    rw [if_neg hne, ih] at hcons
    simpa using hcons

end Listed

end SepBy

end Parser

end Agentless
