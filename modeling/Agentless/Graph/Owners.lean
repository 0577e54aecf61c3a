import Mathlib.Data.List.Basic
import Agentless.Graph.Resolver

/-!
# The owner table of a file

Which symbol owns each line: the innermost span that holds it, by the latest start. The table is
filled one symbol after the other, each over the cells of its span, and a cell then holds what a
scan of all symbols gives for its line.
-/

namespace Agentless.Graph

/-- A later start is a deeper span; an equal start keeps the symbol declared first. -/
def Symbol.wins (candidate : Symbol) (held : Option Symbol) : Bool :=
  held.all fun symbol => symbol.line < candidate.line

/-- The innermost symbol whose span holds `line`. -/
def enclosingSymbol (symbols : List Symbol) (line : Nat) : Option Symbol :=
  symbols.foldl (fun held symbol =>
    if symbol.line ≤ line && line ≤ symbol.endLine && symbol.wins held then some symbol else held)
    none

structure LineOwners where
  symbols : List Symbol
  first : Nat
  owners : List (Option Nat)

section Build

variable (symbols : List Symbol)

/-- The cells with those from `first` to `last` claimed for the symbol at `position`, or nothing
when there are not so many cells. -/
def claim (cells : List (Option Nat)) (symbol : Symbol) (position first last : Nat) :
    Option (List (Option Nat)) :=
  if last < cells.length then
    some (cells.mapIdx fun i cell =>
      if first ≤ i && i ≤ last && symbol.wins (cell.bind (symbols[·]?)) then some position else cell)
  else none

def claimSpan (first : Nat) (cells : List (Option Nat)) (entry : Symbol × Nat) :
    Option (List (Option Nat)) :=
  if entry.1.line ≤ entry.1.endLine then
    claim symbols cells entry.1 entry.2 (entry.1.line - first) (entry.1.endLine - first)
  else some cells

def spans : List Symbol := symbols.filter fun symbol => symbol.line ≤ symbol.endLine

def firstLine : Nat := ((spans symbols).map Symbol.line).min?.getD 0

def lastLine : Nat := ((spans symbols).map Symbol.endLine).max?.getD 0

/-- The owner table, or nothing where the number of its cells is no `u32` or a span leaves it. -/
def LineOwners.build : Option LineOwners :=
  let first := firstLine symbols
  let count := lastLine symbols - first + 1
  if count < 2 ^ 32 then
    (symbols.zipIdx.foldlM (claimSpan symbols first) (List.replicate count none)).map fun owners =>
      ⟨symbols, first, owners⟩
  else none

end Build

def LineOwners.ownerPosition (owners : LineOwners) (line : Nat) : Option Nat :=
  if owners.first ≤ line then (owners.owners[line - owners.first]?).join else none

def LineOwners.owner (owners : LineOwners) (line : Nat) : Option Symbol :=
  (owners.ownerPosition line).bind (owners.symbols[·]?)

/-! ## One scan -/

/-- One step of a scan that keeps the symbol with its position. -/
def hold (line : Nat) (held : Option (Symbol × Nat)) (entry : Symbol × Nat) :
    Option (Symbol × Nat) :=
  if entry.1.line ≤ line && line ≤ entry.1.endLine && wins entry.1 held then some entry else held

section Scan

variable {symbols : List Symbol} {line : Nat}

theorem wins_eq (candidate : Symbol) (held : Option (Symbol × Nat)) :
    wins candidate held = candidate.wins (held.map Prod.fst) := by
  cases held <;> rfl

theorem enclosingSymbol_eq :
    enclosingSymbol symbols line = (symbols.zipIdx.foldl (hold line) none).map Prod.fst := by
  suffices h : ∀ (held : Option (Symbol × Nat)) (start : Nat),
      symbols.foldl (fun held symbol => if symbol.line ≤ line && line ≤ symbol.endLine &&
        symbol.wins held then some symbol else held) (held.map Prod.fst) =
        ((symbols.zipIdx start).foldl (hold line) held).map Prod.fst from h none 0
  induction symbols with
  | nil => simp
  | cons symbol symbols ih =>
    intro held start
    rw [List.zipIdx_cons, List.foldl_cons, List.foldl_cons, ← ih]
    congr 1
    rw [hold, wins_eq]
    split_ifs <;> rfl

/-- What a scan holds is the symbol at the position that it holds. -/
def Located (symbols : List Symbol) (held : Option (Symbol × Nat)) : Prop :=
  ∀ entry ∈ held, symbols[entry.2]? = some entry.1

theorem Located.hold {held : Option (Symbol × Nat)} (h : Located symbols held)
    {entry : Symbol × Nat} (hentry : symbols[entry.2]? = some entry.1) :
    Located symbols (hold line held entry) := by
  unfold Graph.hold
  split_ifs
  · rintro other ⟨⟩
    exact hentry
  · exact h

theorem foldl_hold_eq_none {entries : List (Symbol × Nat)}
    (h : ∀ entry ∈ entries, ¬(entry.1.line ≤ line ∧ line ≤ entry.1.endLine)) :
    entries.foldl (hold line) none = none := by
  induction entries with
  | nil => rfl
  | cons entry entries ih =>
    have hentry := h entry List.mem_cons_self
    rw [List.foldl_cons, hold, if_neg (by grind)]
    exact ih fun other hother => h other (List.mem_cons_of_mem _ hother)

end Scan

/-! ## The table -/

/-- Each cell has the position that the scan of its line holds. -/
structure Table (symbols : List Symbol) (first : Nat) (held : Nat → Option (Symbol × Nat))
    (cells : List (Option Nat)) : Prop where
  cell : ∀ i < cells.length, cells[i]? = some ((held (first + i)).map Prod.snd)
  located : ∀ line, Located symbols (held line)

section Table

variable {symbols : List Symbol} {first : Nat} {held : Nat → Option (Symbol × Nat)}
  {cells : List (Option Nat)} {entry : Symbol × Nat}

theorem Located.bind_eq {held : Option (Symbol × Nat)} (h : Located symbols held) :
    ((held.map Prod.snd).bind fun position => symbols[position]?) = held.map Prod.fst := by
  cases held with
  | none => rfl
  | some entry => simpa using h entry rfl

theorem Table.claimSpan (h : Table symbols first held cells)
    (hentry : symbols[entry.2]? = some entry.1)
    (hspan : entry.1.line ≤ entry.1.endLine →
      first ≤ entry.1.line ∧ entry.1.endLine - first < cells.length) :
    ∃ cells', claimSpan symbols first cells entry = some cells' ∧ cells'.length = cells.length ∧
      Table symbols first (fun line => hold line (held line) entry) cells' := by
  have hlocated line : Located symbols (hold line (held line) entry) := (h.located line).hold hentry
  unfold Graph.claimSpan
  split_ifs with hline
  · obtain ⟨hfirst, hlast⟩ := hspan hline
    rw [claim, if_pos hlast]
    refine ⟨_, rfl, List.length_mapIdx, ⟨fun i hi => ?_, hlocated⟩⟩
    rw [List.length_mapIdx] at hi
    rw [List.getElem?_mapIdx, h.cell i hi, Option.map_some, (h.located _).bind_eq, hold, wins_eq]
    have hsame : (entry.1.line - first ≤ i ∧ i ≤ entry.1.endLine - first) ↔
        (entry.1.line ≤ first + i ∧ first + i ≤ entry.1.endLine) := by omega
    grind
  · refine ⟨cells, rfl, rfl, ⟨fun i hi => ?_, hlocated⟩⟩
    rw [h.cell i hi, hold, if_neg (by grind)]

theorem Table.foldlM {entries : List (Symbol × Nat)} (h : Table symbols first held cells)
    (hentries : ∀ entry ∈ entries, symbols[entry.2]? = some entry.1 ∧
      (entry.1.line ≤ entry.1.endLine →
        first ≤ entry.1.line ∧ entry.1.endLine - first < cells.length)) :
    ∃ cells', entries.foldlM (Graph.claimSpan symbols first) cells = some cells' ∧
      cells'.length = cells.length ∧
      Table symbols first (fun line => entries.foldl (hold line) (held line)) cells' := by
  induction entries generalizing held cells with
  | nil => exact ⟨cells, rfl, rfl, h⟩
  | cons entry entries ih =>
    obtain ⟨hentry, hspan⟩ := hentries entry List.mem_cons_self
    obtain ⟨between, hclaim, hlength, hbetween⟩ := h.claimSpan hentry hspan
    rw [List.foldlM_cons, hclaim]
    obtain ⟨cells', hrest, hlength', htable⟩ := ih hbetween fun other hother => by
      rw [hlength]
      exact hentries other (List.mem_cons_of_mem _ hother)
    exact ⟨cells', hrest, hlength'.trans hlength, htable⟩

theorem table_start (symbols : List Symbol) (first count : Nat) :
    Table symbols first (fun _ => none) (List.replicate count none) where
  cell i hi := by
    rw [List.length_replicate] at hi
    simp [hi]
  located line entry hentry := by cases hentry

end Table

section Bounds

variable {symbols : List Symbol} {symbol : Symbol}

theorem firstLine_le (h : symbol ∈ symbols) (hspan : symbol.line ≤ symbol.endLine) :
    firstLine symbols ≤ symbol.line := by
  have hmem : symbol.line ∈ (spans symbols).map Symbol.line :=
    List.mem_map_of_mem (List.mem_filter.mpr ⟨h, by simpa using hspan⟩)
  unfold firstLine
  cases hmin : ((spans symbols).map Symbol.line).min? with
  | none => exact Nat.zero_le _
  | some first => exact (List.min?_eq_some_iff.mp hmin).2 _ hmem

theorem le_lastLine (h : symbol ∈ symbols) (hspan : symbol.line ≤ symbol.endLine) :
    symbol.endLine ≤ lastLine symbols := by
  have hmem : symbol.endLine ∈ (spans symbols).map Symbol.endLine :=
    List.mem_map_of_mem (List.mem_filter.mpr ⟨h, by simpa using hspan⟩)
  unfold lastLine
  cases hmax : ((spans symbols).map Symbol.endLine).max? with
  | none =>
    rw [List.max?_eq_none_iff.mp hmax] at hmem
    cases hmem
  | some last => exact (List.max?_eq_some_iff.mp hmax).2 _ hmem

/-- Lines count from 1, so the number of cells is a `u32`. -/
theorem count_lt (h : ∀ symbol ∈ symbols, 1 ≤ symbol.line ∧ symbol.endLine < 2 ^ 32) :
    lastLine symbols - firstLine symbols + 1 < 2 ^ 32 := by
  rcases eq_or_ne (spans symbols) [] with hspans | hspans
  · simp [lastLine, firstLine, hspans]
  · have hlines : (spans symbols).map Symbol.line ≠ [] := by simpa using hspans
    have hends : (spans symbols).map Symbol.endLine ≠ [] := by simpa using hspans
    obtain ⟨first, hfirst⟩ := Option.ne_none_iff_exists'.mp (mt List.min?_eq_none_iff.mp hlines)
    obtain ⟨last, hlast⟩ := Option.ne_none_iff_exists'.mp (mt List.max?_eq_none_iff.mp hends)
    obtain ⟨symbol, hsymbol, rfl⟩ := List.mem_map.mp (List.min?_eq_some_iff.mp hfirst).1
    obtain ⟨symbol', hsymbol', rfl⟩ := List.mem_map.mp (List.max?_eq_some_iff.mp hlast).1
    have hone := (h symbol (List.mem_of_mem_filter hsymbol)).1
    have hbound := (h symbol' (List.mem_of_mem_filter hsymbol')).2
    rw [lastLine, firstLine, hfirst, hlast, Option.getD_some, Option.getD_some]
    omega

/-- Where the number of cells is a `u32` the table is built, and each cell has what the scan of its
line holds. -/
theorem build_table (h : lastLine symbols - firstLine symbols + 1 < 2 ^ 32) :
    ∃ cells, LineOwners.build symbols = some ⟨symbols, firstLine symbols, cells⟩ ∧
      cells.length = lastLine symbols - firstLine symbols + 1 ∧
      Table symbols (firstLine symbols) (fun line => symbols.zipIdx.foldl (hold line) none) cells := by
  have hentries : ∀ entry ∈ symbols.zipIdx, symbols[entry.2]? = some entry.1 ∧
      (entry.1.line ≤ entry.1.endLine → firstLine symbols ≤ entry.1.line ∧
        entry.1.endLine - firstLine symbols < (List.replicate
          (lastLine symbols - firstLine symbols + 1) (none : Option Nat)).length) := by
    intro entry hentry
    have hget := List.mem_zipIdx_iff_getElem?.mp hentry
    have hmem := List.mem_of_getElem? hget
    refine ⟨hget, fun hspan => ⟨firstLine_le hmem hspan, ?_⟩⟩
    have hlast := le_lastLine hmem hspan
    rw [List.length_replicate]
    omega
  obtain ⟨cells, hfold, hlength, htable⟩ := (table_start symbols _ _).foldlM hentries
  refine ⟨cells, ?_, by rw [hlength, List.length_replicate], htable⟩
  rw [LineOwners.build, if_pos h, hfold, Option.map_some]

/-- A scan of a line outside the table holds nothing. -/
theorem foldl_hold_outside {line : Nat}
    (h : line < firstLine symbols ∨ lastLine symbols < line) :
    symbols.zipIdx.foldl (hold line) none = none := by
  refine foldl_hold_eq_none fun entry hentry hline => ?_
  have hmem := List.mem_of_getElem? (List.mem_zipIdx_iff_getElem?.mp hentry)
  have hfirst := firstLine_le hmem (by omega)
  have hlast := le_lastLine hmem (by omega)
  omega

end Bounds

/-- The table gives each line the symbol, and the position, that the scan of all symbols gives it,
and it is built for all symbols whose lines count from 1. -/
theorem lineOwners_eq_scan (symbols : List Symbol) :
    ((∀ symbol ∈ symbols, 1 ≤ symbol.line ∧ symbol.endLine < 2 ^ 32) →
      (LineOwners.build symbols).isSome) ∧
    ∀ owners, LineOwners.build symbols = some owners → ∀ line,
      owners.owner line = enclosingSymbol symbols line ∧
      owners.ownerPosition line = ownerPosition symbols line := by
  constructor
  · intro h
    obtain ⟨cells, hbuild, -⟩ := build_table (count_lt h)
    rw [hbuild]
    rfl
  · intro owners howners line
    have hcount : lastLine symbols - firstLine symbols + 1 < 2 ^ 32 := by
      by_contra hcount
      simp only [LineOwners.build, if_neg hcount] at howners
      cases howners
    obtain ⟨cells, hbuild, hlength, htable⟩ := build_table hcount
    obtain rfl := Option.some.inj (hbuild.symm.trans howners)
    have hposition : (LineOwners.mk symbols (firstLine symbols) cells).ownerPosition line =
        (symbols.zipIdx.foldl (hold line) none).map Prod.snd := by
      rw [LineOwners.ownerPosition]
      dsimp only
      split_ifs with hline
      · by_cases hcell : line - firstLine symbols < cells.length
        · rw [htable.cell _ hcell, Nat.add_sub_cancel' hline, Option.join_some]
        · rw [List.getElem?_eq_none (by omega), foldl_hold_outside (by omega)]
          rfl
      · rw [foldl_hold_outside (by omega)]
        rfl
    refine ⟨?_, hposition⟩
    rw [LineOwners.owner, hposition, (htable.located line).bind_eq, enclosingSymbol_eq]

def Nested.outer : Symbol := ⟨"f".toList, 1, 4, 1, [], [], 0⟩

def Nested.inner : Symbol := ⟨"g".toList, 2, 6, 2, [], [], 0⟩

/-- Two crossing spans. -/
theorem lineOwners_eq_scan_crossing :
    ∃ owners, LineOwners.build [Nested.outer, Nested.inner] = some owners ∧
      ∀ line, owners.owner line = enclosingSymbol [Nested.outer, Nested.inner] line := by
  obtain ⟨hbuilt, hscan⟩ := lineOwners_eq_scan [Nested.outer, Nested.inner]
  obtain ⟨owners, howners⟩ := Option.isSome_iff_exists.mp (hbuilt (by decide))
  exact ⟨owners, howners, fun line => (hscan owners howners line).1⟩

end Agentless.Graph
