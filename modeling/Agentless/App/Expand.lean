import Agentless.App.Budget
import Agentless.App.Cards

/-!
# Items cut to a budget

Items that fit an equal share of the budget stay whole, and the others are cut to the last share.
Expansion cuts symbol cards this way, and history cuts commits.
-/

namespace Agentless.App

/-- How a view cuts its items: the tokens of an item, the item cut to a share, the item cut to the
fewest lines that a cut leaves, whether its text says that it is cut, and whether it shows fewer
lines than it has. -/
structure Cutting (α : Type) where
  tokens : α → Nat
  shorten : Nat → α → α
  fewest : α → α
  Marked : α → Prop
  Short : α → Prop

variable {α : Type} (cutting : Cutting α) (items : List α) (budget : Nat)

/-- The items, those that do not fit cut to the share. -/
def fitItems : Option (List α) := do
  let (cut, share) ← allocate (items.map cutting.tokens) budget
  some (items.mapIdx fun index item => if index ∈ cut then cutting.shorten share item else item)

/-- How many lines of a cut item, at least `low` of them, measure no more than what the share leaves
beside the header and the marker. -/
def keptLines (low total header share : Nat) (measured : Nat → Nat) : Nat :=
  let reserved := header + truncationMarkerTokens
  let room := if reserved ≤ share then some (share - reserved) else none
  longestFitting low total fun kept => room.any (measured kept ≤ ·)

/-! ## What a cut keeps -/

/-- The items that are cut at a max-min fair split of the budget, each with the share. -/
def CutAt (share : Nat) (item : α) : Prop :=
  ∃ cut index, FairSplit (Finset.range items.length) (cost (items.map cutting.tokens)) budget cut
    share ∧ index ∈ cut ∧ items[index]? = some item

/-- A cut item keeps to the share when its fewest lines do, and it is marked only when it shows
fewer lines than it has. -/
structure Cutting.Keeps (share : Nat) (item : α) : Prop where
  tokens_le : cutting.tokens (cutting.fewest item) ≤ share →
    cutting.tokens (cutting.shorten share item) ≤ share
  short : cutting.Marked (cutting.shorten share item) → cutting.Short (cutting.shorten share item)

/-- The law of a fit: the cut items keep to the share, and where their fewest lines all do, the
fitted items keep to the budget. -/
structure KeepsBudget (cut : Finset Nat) (share : Nat) (fitted : List α) : Prop where
  length_eq : fitted.length = items.length
  whole : ∀ index ∉ cut, fitted[index]? = items[index]?
  shortened : ∀ index ∈ cut, fitted[index]? = (items[index]?).map (cutting.shorten share)
  keeps : ∀ index ∈ cut, ∀ item, items[index]? = some item → cutting.Keeps share item
  sum_le : (∀ index ∈ cut, ∀ item, items[index]? = some item →
    cutting.tokens (cutting.fewest item) ≤ share) → (fitted.map cutting.tokens).sum ≤ budget

/-- The law of a fit, for the items and the budget. -/
def FitKeeps : Prop :=
  ∃ cut share fitted, allocate (items.map cutting.tokens) budget = some (cut, share) ∧
    fitItems cutting items budget = some fitted ∧ KeepsBudget cutting items budget cut share fitted

variable {cutting items budget}

theorem sum_eq_sum_cost (costs : List Nat) :
    costs.sum = ∑ index ∈ Finset.range costs.length, cost costs index := by
  rw [← Fin.sum_univ_getElem, Finset.sum_range]
  refine Finset.sum_congr rfl fun index _ => ?_
  rw [cost, List.getElem?_eq_getElem index.isLt]
  rfl

theorem sum_fitted_le {cut : Finset Nat} {share : Nat} {costs fitted : List Nat}
    (hfair : FairSplit (Finset.range costs.length) (cost costs) budget cut share)
    (hlength : fitted.length = costs.length)
    (hwhole : ∀ index ∉ cut, cost fitted index = cost costs index)
    (hcut : ∀ index ∈ cut, cost fitted index ≤ share) : fitted.sum ≤ budget := by
  rw [sum_eq_sum_cost, hlength, ← Finset.sum_sdiff hfair.subset]
  calc _ ≤ ∑ index ∈ Finset.range costs.length \ cut, cost costs index + ∑ index ∈ cut, share :=
        Nat.add_le_add
          (Finset.sum_le_sum fun index hindex => (hwhole index (Finset.mem_sdiff.mp hindex).2).le)
          (Finset.sum_le_sum hcut)
    _ = ∑ index ∈ Finset.range costs.length \ cut, cost costs index + share * cut.card := by
        rw [Finset.sum_const, smul_eq_mul, Nat.mul_comm]
    _ ≤ budget := hfair.le_budget

/-- The law of a fit holds exactly when each item that a fair split cuts keeps to its share. -/
theorem fitKeeps_iff :
    FitKeeps cutting items budget ↔
      ∀ share item, CutAt cutting items budget share item → cutting.Keeps share item := by
  obtain ⟨cut, share, hallocate, hfair⟩ := allocate_fairSplit (items.map cutting.tokens) budget
  have hlength : (items.map cutting.tokens).length = items.length := List.length_map _
  have hfit : fitItems cutting items budget = some (items.mapIdx fun index item =>
      if index ∈ cut then cutting.shorten share item else item) := by
    rw [fitItems, hallocate]
    rfl
  constructor
  · rintro ⟨cut', share', fitted, hallocate', -, hkeeps⟩ share'' item
    obtain ⟨rfl, rfl⟩ := Prod.mk.inj (Option.some.inj (hallocate.symm.trans hallocate'))
    rintro ⟨cut'', index, hfair', hindex, hitem⟩
    rw [hlength] at hfair
    obtain ⟨rfl, rfl⟩ := hfair.unique hfair'
    exact hkeeps.keeps index hindex item hitem
  · intro hkeeps
    have hall : ∀ index ∈ cut, ∀ item, items[index]? = some item → cutting.Keeps share item :=
      fun index hindex item hitem => hkeeps share item ⟨cut, index, hlength ▸ hfair, hindex, hitem⟩
    refine ⟨cut, share, _, hallocate, hfit, List.length_mapIdx, fun index hindex => ?_,
      fun index hindex => ?_, hall, fun hfewest => ?_⟩
    · simp [hindex]
    · simp [hindex]
    · refine sum_fitted_le hfair (by simp) (fun index hindex => ?_) fun index hindex => ?_
      · simp [cost, hindex]
      · have hlt : index < items.length := by simpa using hfair.subset hindex
        have hitem := List.getElem?_eq_getElem hlt
        have hle := (hall index hindex _ hitem).tokens_le (hfewest index hindex _ hitem)
        simpa [cost, hindex, hlt] using hle

/-! ## The lines that are kept -/

section Kept

/-- Some lines that the share has room for. -/
def Fits (header share : Nat) (measured : Nat → Nat) (kept : Nat) : Prop :=
  header + truncationMarkerTokens + measured kept ≤ share

variable {low total : Nat} (header share : Nat) (measured printed : Nat → Nat)

theorem keptLines_bounds (hlow : low ≤ total) :
    low ≤ keptLines low total header share measured ∧
      keptLines low total header share measured ≤ total :=
  longestFitting_bounds _ hlow

theorem room_any_iff {kept : Nat} :
    (if header + truncationMarkerTokens ≤ share then some (share - (header + truncationMarkerTokens))
      else none).any (measured kept ≤ ·) = true ↔ Fits header share measured kept := by
  unfold Fits
  split <;> simp <;> omega

/-- The search keeps as many lines as fit, since fewer lines never measure more. -/
theorem keptLines_largest (hlow : low ≤ total) (hmono : Monotone measured) :
    (keptLines low total header share measured ≠ low →
      Fits header share measured (keptLines low total header share measured)) ∧
    ∀ kept, keptLines low total header share measured < kept → kept ≤ total →
      ¬ Fits header share measured kept := by
  have hlargest : LargestFit (fun kept => (if header + truncationMarkerTokens ≤ share then
        some (share - (header + truncationMarkerTokens)) else none).any (measured kept ≤ ·))
      low total (keptLines low total header share measured) := by
    refine longestFitting_largest hlow fun m n _ hmn _ hfits => ?_
    rw [room_any_iff] at hfits ⊢
    exact le_trans (Nat.add_le_add_left (hmono hmn) _) hfits
  refine ⟨fun hne => (room_any_iff ..).mp (hlargest.fits_self hne), fun kept hkept htotal hfits => ?_⟩
  have hout := hlargest.above kept hkept htotal
  rw [(room_any_iff ..).mpr hfits] at hout
  cases hout

theorem printed_keptLines_iff (hlow : low ≤ total) (hmono : Monotone measured)
    (hprinted : MonotoneOn printed (Set.Ici low)) :
    (printed low ≤ share → printed (keptLines low total header share measured) ≤ share) ↔
      (printed low ≤ share → ∀ kept, low < kept → kept ≤ total →
        Fits header share measured kept → printed kept ≤ share) := by
  obtain ⟨hfits, habove⟩ := keptLines_largest header share measured hlow hmono
  obtain ⟨hge, hle⟩ := keptLines_bounds header share measured hlow
  refine imp_congr_right fun hfewest => ⟨fun hkept kept hlt htotal hfit => ?_, fun hall => ?_⟩
  · have hupto : kept ≤ keptLines low total header share measured :=
      Nat.le_of_not_lt fun hgt => habove kept hgt htotal hfit
    exact (hprinted hlt.le (hlt.le.trans hupto) hupto).trans hkept
  · by_cases heq : keptLines low total header share measured = low
    · rwa [heq]
    · exact hall _ (by omega) hle (hfits heq)

end Kept

end Agentless.App

/-!
## Expansion

The bodies of the symbol cards, cut max-min fair to one token budget.
-/

namespace Agentless.App.Expand

open Prompts Text

/-- The row that announces a cut. -/
def marker (kept total : Nat) : Text :=
  fill expandBodyTruncated [.ofCount kept, .ofCount total]

def cardTokens (card : SymbolCard) : Nat := chars4 (cardsText [card])

/-- The card with its first lines and the marker. -/
def cutTo (card : SymbolCard) (kept : Nat) : SymbolCard :=
  let lines := splitLines card.body
  { card with
    body := joinLines (lines.take kept) ++ '\n' :: marker kept lines.length
    bodyShown := kept
    bodyTotal := lines.length }

/-- The tokens of a card without its body. -/
def header (card : SymbolCard) : Nat := cardTokens { card with body := [] }

/-- The tokens of the first lines of a body, as the source has them. -/
def measured (card : SymbolCard) (kept : Nat) : Nat :=
  chars4 (joinLines ((splitLines card.body).take kept))

/-- At least one body line survives any share, so the card still points somewhere. -/
def shorten (share : Nat) (card : SymbolCard) : SymbolCard :=
  cutTo card (keptLines 1 (splitLines card.body).length (header card) share (measured card))

/-- A card whose body ends in the marker. -/
def Marked (card : SymbolCard) : Prop :=
  ('\n' :: marker card.bodyShown card.bodyTotal) <:+ card.body

def cutting : Cutting SymbolCard where
  tokens := cardTokens
  shorten := shorten
  fewest card := cutTo card 1
  Marked := Marked
  Short card := card.bodyShown < card.bodyTotal

/-- Cards that fit an equal share stay whole; the others are cut to the last share. -/
def fitBodies (cards : List SymbolCard) (budget : Nat) : Option (List SymbolCard) :=
  fitItems cutting cards budget

/-! ## The size of a cut card -/

/-- The characters of a card cut to its first lines: the head, and the rows of the lines and of the
marker, indented and escaped. -/
def cutSize (card : SymbolCard) (kept : Nat) : Nat :=
  linesSize (cardHead card) + linesSize ((((splitLines card.body).take kept) ++
    [marker kept (splitLines card.body).length]).map cardRow)

variable {card : SymbolCard} {kept : Nat}

theorem length_cardsText (card : SymbolCard) :
    (cardsText [card]).length = linesSize (cardHead card) +
      linesSize (if card.body = [] then [cardRow card.signature]
        else (splitLines card.body).map cardRow) := by
  have hne : ∀ rows, cardHead card ++ rows ≠ [] := fun rows => List.cons_ne_nil _ _
  rw [← linesSize_append, ← length_joinLines (hne _)]
  simp [cardsText, cardText]

theorem safe_marker (kept total : Nat) : ∀ c ∈ marker kept total, (!isUnsafe c) = true := by
  refine forall_mem_fill (by decide) fun value hvalue => ?_
  rcases List.mem_pair.mp hvalue with rfl | rfl
  · exact safe_toDigits kept
  · exact safe_toDigits total

theorem feed_notMem_marker (kept total : Nat) : '\n' ∉ marker kept total := fun hmem =>
  absurd (safe_marker kept total _ hmem) (by decide)

theorem length_marker (kept total : Nat) : (marker kept total).length =
    (Nat.toDigits 10 kept).length + (Nat.toDigits 10 total).length + 109 := by
  simp [marker, fill, expandBodyTruncated, Piece.filled, Filled.ofCount]
  omega

theorem splitLines_cutTo (hkept : 1 ≤ kept) :
    splitLines (cutTo card kept).body =
      (splitLines card.body).take kept ++ [marker kept (splitLines card.body).length] := by
  have hlines : (splitLines card.body).take kept ≠ [] := by
    rw [ne_eq, List.take_eq_nil_iff]
    exact not_or.mpr ⟨by omega, splitLines_ne_nil _⟩
  have hbody : (cutTo card kept).body = joinLines ((splitLines card.body).take kept ++
      [marker kept (splitLines card.body).length]) := by
    rw [joinLines_append hlines (List.cons_ne_nil _ _), joinLines_singleton]
    rfl
  rw [hbody, splitLines_joinLines (by simp)]
  rw [unbroken_append]
  refine ⟨fun line hline => unbroken_splitLines _ line (List.mem_of_mem_take hline), ?_⟩
  exact fun line hline => List.mem_singleton.mp hline ▸ feed_notMem_marker _ _

theorem length_cutTo (hkept : 1 ≤ kept) : (cardsText [cutTo card kept]).length = cutSize card kept := by
  have hne : (cutTo card kept).body ≠ [] := by simp [cutTo]
  rw [length_cardsText, if_neg hne, splitLines_cutTo hkept]
  rfl

/-- More lines are never printed shorter. -/
theorem cutSize_mono {m n : Nat} (h : m ≤ n) : cutSize card m ≤ cutSize card n := by
  have hlines := linesSize_take_le ((splitLines card.body).map cardRow) h
  have hdigits := length_toDigits_mono h
  have hrow (kept : Nat) : (cardRow (marker kept (splitLines card.body).length)).length =
      rowIndent.length + (marker kept (splitLines card.body).length).length := by
    rw [cardRow, oneLine_of_safe (safe_marker _ _), List.length_append]
  simp only [cutSize, List.map_append, List.map_take, linesSize_append, List.map_singleton,
    linesSize_cons, linesSize_nil, hrow, length_marker]
  omega

theorem measured_mono (card : SymbolCard) : Monotone (measured card) :=
  monotone_chars4_joinLines_take _

/-- When a cut card keeps to its share: it has two lines or more, its whole body does not fit as the
source has it, and where the first line alone keeps to the share, the indents, the escapes and the
marker of any lines that fit do too. -/
structure Slack (share : Nat) (card : SymbolCard) : Prop where
  two_le : 2 ≤ (splitLines card.body).length
  whole : ¬ Fits (header card) share (measured card) (splitLines card.body).length
  cutSize_lt : cutSize card 1 < 4 * (share + 1) → ∀ kept, 1 < kept →
    kept ≤ (splitLines card.body).length → Fits (header card) share (measured card) kept →
      cutSize card kept < 4 * (share + 1)

theorem cardTokens_cutTo_le_iff {share : Nat} (hkept : 1 ≤ kept) :
    cardTokens (cutTo card kept) ≤ share ↔ cutSize card kept < 4 * (share + 1) := by
  rw [cardTokens, chars4_le_iff, length_cutTo hkept]

theorem marked_cutTo (card : SymbolCard) (kept : Nat) : Marked (cutTo card kept) :=
  List.suffix_append _ _

theorem keeps_iff {share : Nat} {card : SymbolCard} : cutting.Keeps share card ↔ Slack share card := by
  have hlow : 1 ≤ (splitLines card.body).length := List.length_pos_iff.mpr (splitLines_ne_nil _)
  obtain ⟨hge, hle⟩ := keptLines_bounds (header card) share (measured card) hlow
  obtain ⟨hfits, habove⟩ := keptLines_largest (header card) share _ hlow (measured_mono card)
  have hprinted := printed_keptLines_iff (header card) share _
    (fun kept => cardTokens (cutTo card kept)) hlow (measured_mono card) fun m hm n hn hmn => by
      refine Nat.div_le_div_right ?_
      rw [length_cutTo hm, length_cutTo hn]
      exact cutSize_mono hmn
  have hsize : (cardTokens (cutTo card 1) ≤ share → cardTokens (shorten share card) ≤ share) ↔
      (cutSize card 1 < 4 * (share + 1) → ∀ kept, 1 < kept →
        kept ≤ (splitLines card.body).length → Fits (header card) share (measured card) kept →
          cutSize card kept < 4 * (share + 1)) := by
    refine hprinted.trans (imp_congr (cardTokens_cutTo_le_iff le_rfl) ?_)
    exact forall₃_congr fun kept hkept _ => imp_congr_right fun _ => cardTokens_cutTo_le_iff hkept.le
  have hshort : keptLines 1 (splitLines card.body).length (header card) share (measured card) <
      (splitLines card.body).length ↔ 2 ≤ (splitLines card.body).length ∧
        ¬ Fits (header card) share (measured card) (splitLines card.body).length := by
    constructor
    · intro hlt
      exact ⟨by omega, habove _ hlt le_rfl⟩
    · rintro ⟨htwo, hwhole⟩
      refine lt_of_le_of_ne hle fun heq => hwhole ?_
      rw [heq] at hfits
      exact hfits (by omega)
  constructor
  · intro hkeeps
    obtain ⟨htwo, hwhole⟩ := hshort.mp (hkeeps.short (marked_cutTo _ _))
    exact ⟨htwo, hwhole, hsize.mp hkeeps.tokens_le⟩
  · intro hslack
    exact ⟨hsize.mpr hslack.cutSize_lt, fun _ => hshort.mpr ⟨hslack.two_le, hslack.whole⟩⟩

end Agentless.App.Expand
