import Agentless.Text.DiffGroups
import Agentless.Patch.Unidiff

/-!
# Reading back what a diff renders

A hunk as its header and its marked lines, and what the reader makes of a list of such hunks: the
header reads back as its ranges, the body as its two sides, and the section as one hunk each.
-/

namespace Agentless.Patch

open Text Text.Diff

/-! ## Numbers and headers -/

theorem isDigit_cases {c : Char} (h : c.isDigit) : ∃ d < 10, c = Nat.digitChar d := by
  have hle : 48 ≤ c.toNat ∧ c.toNat ≤ 57 := by
    simp only [Char.isDigit, Bool.and_eq_true, decide_eq_true_eq] at h
    exact h
  refine ⟨c.toNat - 48, by omega, ?_⟩
  apply Char.toNat_inj.mp
  rw [Nat.toNat_digitChar_of_lt_ten (by omega)]
  omega

theorem isDecimal_of_isDigit {c : Char} (h : c.isDigit) : isDecimal c := by
  obtain ⟨d, hd, rfl⟩ := isDigit_cases h
  interval_cases d <;> decide

theorem decimalValue_of_isDigit {c : Char} (h : c.isDigit) :
    decimalValue c = some (c.toNat - '0'.toNat) := by
  obtain ⟨d, hd, rfl⟩ := isDigit_cases h
  rw [decimalValue_digitChar hd]
  interval_cases d <;> rfl

theorem isDigit_of_mem_decimal {n : Nat} {c : Char} (h : c ∈ decimal n) : c.isDigit :=
  Nat.isDigit_of_mem_toDigits (by omega) (by omega) h

/-- The decimal text of a number reads back as the number. -/
theorem leading_decimal (n : Nat) {rest : Text} (hrest : ∀ c ∈ rest.head?, isDecimal c = false) :
    leading (decimal n ++ rest) = some (n, rest) := by
  have hdigits : ∀ c ∈ decimal n, isDecimal c := fun c hc =>
    isDecimal_of_isDigit (isDigit_of_mem_decimal hc)
  have htake : rest.takeWhile isDecimal = [] := by
    cases rest with
    | nil => rfl
    | cons c rest => simp [hrest c (by simp)]
  have hdrop : rest.dropWhile isDecimal = rest := by
    cases rest with
    | nil => rfl
    | cons c rest => simp [hrest c (by simp)]
  have hvalue : (decimal n).filterMap decimalValue = (decimal n).map fun c => c.toNat - '0'.toNat := by
    rw [← List.filterMap_eq_map]
    exact List.filterMap_congr fun c hc =>
      decimalValue_of_isDigit (isDigit_of_mem_decimal hc)
  have hne : decimal n ≠ [] := Nat.toDigits_ne_nil
  unfold leading
  simp only [List.takeWhile_append_of_pos hdigits, List.dropWhile_append_of_pos hdigits, htake,
    hdrop, List.append_nil, hne, if_false, hvalue, List.foldl_map]
  rw [← Nat.ofDigitChars_eq_foldl]
  exact congrArg (fun value => some (value, rest)) Nat.ofDigitChars_ten_toDigits

/-- The first number of a range as the header spells it. -/
def rangeStart (start stop : Nat) : Nat := if stop - start = 0 then start else start + 1

theorem range_reads (start stop : Nat) (c : Char) (rest : Text) (hdigit : isDecimal c = false)
    (hcomma : c ≠ ',') :
    ∃ tail, leading (hunkRange start stop ++ c :: rest) = some (rangeStart start stop, tail) ∧
      count tail = some (stop - start, c :: rest) := by
  have hcount : ∀ n, count (',' :: (decimal n ++ c :: rest)) = some (n, c :: rest) := fun n =>
    leading_decimal n (by simp [hdigit])
  have hnumber : ∀ n m, leading (decimal n ++ ',' :: (decimal m ++ c :: rest)) =
      some (n, ',' :: (decimal m ++ c :: rest)) := fun n m => by
    refine leading_decimal n ?_
    simp only [List.head?_cons, Option.mem_def, Option.some.injEq, forall_eq']
    decide
  unfold hunkRange rangeStart
  split
  · rename_i hzero
    have h0 : ",0".toList = ',' :: decimal 0 := rfl
    refine ⟨_, ?_, by rw [hzero]; exact hcount 0⟩
    rw [h0, List.append_assoc, List.cons_append, if_pos hzero]
    exact hnumber start 0
  · rename_i hone
    refine ⟨c :: rest, ?_, ?_⟩
    · rw [if_neg (by omega)]
      exact leading_decimal (start + 1) (by simp [hdigit])
    · rw [hone]
      simp [count, stripPrefix, hcomma.symm]
  · rename_i hzero hone
    refine ⟨_, ?_, hcount (stop - start)⟩
    rw [if_neg (by omega), List.append_assoc, List.cons_append]
    exact hnumber (start + 1) (stop - start)

theorem parseHeader_hunkHeader (aStart aEnd bStart bEnd : Nat) :
    parseHeader (hunkHeader aStart aEnd bStart bEnd) =
      some ⟨rangeStart aStart aEnd, aEnd - aStart, bEnd - bStart⟩ := by
  obtain ⟨old, hold, holdCount⟩ := range_reads aStart aEnd ' '
    ('+' :: (hunkRange bStart bEnd ++ " @@".toList)) (by decide) (by decide)
  obtain ⟨new, hnew, hnewCount⟩ := range_reads bStart bEnd ' ' "@@".toList
    (by decide) (by decide)
  have hsplit : hunkHeader aStart aEnd bStart bEnd = "@@ -".toList ++ (hunkRange aStart aEnd ++
      ' ' :: '+' :: (hunkRange bStart bEnd ++ " @@".toList)) := by
    simp [hunkHeader]
  have hplus : stripPrefix " +".toList (' ' :: '+' :: (hunkRange bStart bEnd ++ " @@".toList)) =
      some (hunkRange bStart bEnd ++ " @@".toList) := stripPrefix_append " +".toList _
  have hend : " @@".toList = ' ' :: "@@".toList := rfl
  rw [← hend] at hnew hnewCount
  unfold parseHeader
  simp only [hsplit, stripPrefix_append, hold, holdCount, hplus, hnew, hnewCount, bind,
    Option.bind_some]
  rfl

theorem newline_notMem_hunkHeader (aStart aEnd bStart bEnd : Nat) :
    '\n' ∉ hunkHeader aStart aEnd bStart bEnd := by
  have hdecimal (n : Nat) : '\n' ∉ decimal n := fun hmem =>
    absurd (isDigit_of_mem_decimal hmem) (by decide)
  have hrange (start stop : Nat) : '\n' ∉ hunkRange start stop := by
    unfold hunkRange
    split <;> simp [hdecimal]
  simp [hunkHeader, hrange]

/-! ## Bodies -/

/-- A body line as a diff writes it. -/
def IsMarked (line : Text) : Prop :=
  ∃ marker content, line = marker :: content ∧ (marker = ' ' ∨ marker = '-' ∨ marker = '+')

def preLine : Text → Option Text
  | [] => none
  | marker :: content => if marker = ' ' ∨ marker = '-' then some content else none

def postLine : Text → Option Text
  | [] => none
  | marker :: content => if marker = ' ' ∨ marker = '+' then some content else none

/-- The context and removed lines. -/
def preImage (body : List Text) : List Text := body.filterMap preLine

/-- The context and added lines. -/
def postImage (body : List Text) : List Text := body.filterMap postLine

@[simp] theorem preImage_append (body more : List Text) :
    preImage (body ++ more) = preImage body ++ preImage more := List.filterMap_append

@[simp] theorem postImage_append (body more : List Text) :
    postImage (body ++ more) = postImage body ++ postImage more := List.filterMap_append

theorem leftOf_eq {count used : Nat} (h : count < 2 ^ 64) :
    Tally.leftOf count used = decide (used < count) := by
  rw [Tally.leftOf, toUsize, if_pos h]
  rfl

section Body

variable (quoted : Text → Text) (path header : Text)

theorem bodyFrom_step {marker : Char} (hmarker : marker = ' ' ∨ marker = '-' ∨ marker = '+')
    (content : Text) (rest : List Text) (next : Nat) {tally : Tally}
    (hfits : tally.fits marker = some true) :
    bodyFrom quoted path header ((marker :: content) :: rest) next tally =
      bodyFrom quoted path header rest (next + 1) (tally.take marker content) := by
  have hopened : tally.opened = true := by
    rcases hmarker with rfl | rfl | rfl <;> simp_all [Tally.fits, Tally.opened]
  have hmark : noNewline.isPrefixOf (marker :: content) = false := by
    rcases hmarker with rfl | rfl | rfl <;> rfl
  rw [bodyFrom, if_pos hopened]
  simp [hmark, marked, hfits]

theorem preImage_cons (line : Text) (body : List Text) :
    preImage (line :: body) = (preLine line).toList ++ preImage body := by
  cases h : preLine line <;> simp [preImage, h]

theorem postImage_cons (line : Text) (body : List Text) :
    postImage (line :: body) = (postLine line).toList ++ postImage body := by
  cases h : postLine line <;> simp [postImage, h]

theorem take_eq {marker : Char} (hmarker : marker = ' ' ∨ marker = '-' ∨ marker = '+')
    (content : Text) (tally : Tally) :
    tally.take marker content =
      { tally with
        old := tally.old ++ (preLine (marker :: content)).toList
        new := tally.new ++ (postLine (marker :: content)).toList } := by
  rcases hmarker with rfl | rfl | rfl <;> simp [Tally.take, preLine, postLine]

theorem fits_eq {marker : Char} (hmarker : marker = ' ' ∨ marker = '-' ∨ marker = '+')
    (content : Text) {tally : Tally} (hold : tally.oldCount < 2 ^ 64)
    (hnew : tally.newCount < 2 ^ 64)
    (hpre : tally.old.length + (preLine (marker :: content)).toList.length ≤ tally.oldCount)
    (hpost : tally.new.length + (postLine (marker :: content)).toList.length ≤ tally.newCount) :
    tally.fits marker = some true := by
  rcases hmarker with rfl | rfl | rfl <;>
    simp [preLine, postLine, Tally.fits, Tally.leftOld, Tally.leftNew, leftOf_eq hold,
      leftOf_eq hnew] at * <;> omega

/-- A body whose sides fill the declared counts is read to its end, and no further. -/
theorem bodyFrom_read {body : List Text} (rest : List Text) (hbody : ∀ line ∈ body, IsMarked line)
    (next : Nat) (tally : Tally) (hold : tally.oldCount < 2 ^ 64) (hnew : tally.newCount < 2 ^ 64)
    (hpre : tally.old.length + (preImage body).length = tally.oldCount)
    (hpost : tally.new.length + (postImage body).length = tally.newCount) :
    bodyFrom quoted path header (body ++ rest) next tally =
      .ok ({ tally with old := tally.old ++ preImage body, new := tally.new ++ postImage body },
        next + body.length) := by
  induction body generalizing next tally with
  | nil =>
    have hclosed : tally.opened = false := by
      simp only [preImage, postImage, List.filterMap_nil, List.length_nil] at hpre hpost
      simp only [Tally.opened, Tally.leftOld, Tally.leftNew, leftOf_eq hold, leftOf_eq hnew,
        Bool.or_eq_false_iff, decide_eq_false_iff_not]
      omega
    unfold bodyFrom
    rw [hclosed]
    simp [preImage, postImage]
  | cons line body ih =>
    obtain ⟨⟨marker, content, rfl, hmarker⟩, hrest⟩ := List.forall_mem_cons.mp hbody
    simp only [preImage_cons, postImage_cons, List.length_append] at hpre hpost ⊢
    have hfits := fits_eq hmarker content hold hnew (by omega) (by omega)
    rw [List.cons_append, bodyFrom_step quoted path header hmarker content _ next hfits,
      take_eq hmarker]
    refine (ih hrest (next + 1) _ ?_ ?_ ?_ ?_).trans ?_
    · exact hold
    · exact hnew
    · simp only [List.length_append]
      omega
    · simp only [List.length_append]
      omega
    · simp [Nat.add_comm, Nat.add_left_comm]

end Body

/-! ## Hunks and sections -/

/-- A hunk as a diff writes it: the ranges of its header and the marked lines of its body. -/
structure Written where
  aStart : Nat
  aEnd : Nat
  bStart : Nat
  bEnd : Nat
  body : List Text
  marked : ∀ line ∈ body, IsMarked line
  pre : (preImage body).length = aEnd - aStart
  post : (postImage body).length = bEnd - bStart
  aLimit : aEnd - aStart < 2 ^ 64
  bLimit : bEnd - bStart < 2 ^ 64

namespace Written

variable (written : Written)

def header : Text := hunkHeader written.aStart written.aEnd written.bStart written.bEnd

def lines : List Text := written.header :: written.body

def counts : Counts :=
  ⟨rangeStart written.aStart written.aEnd, written.aEnd - written.aStart,
    written.bEnd - written.bStart⟩

def read (path : Text) (newFile : Bool) (index : Nat) : Hunk :=
  ⟨index, path, preImage written.body, postImage written.body, newFile⟩

theorem parseHeader_header : parseHeader written.header = some written.counts :=
  parseHeader_hunkHeader _ _ _ _

theorem opensHunk_header : opensHunk written.header = true := rfl

theorem getLast?_header : written.header.getLast? = some '@' := by
  have hend : written.header = ("@@ -".toList ++ hunkRange written.aStart written.aEnd ++
      " +".toList ++ hunkRange written.bStart written.bEnd ++ " @".toList) ++ ['@'] := by
    simp [header, hunkHeader]
  rw [hend, List.getLast?_concat]

theorem isStrayBody_header : isStrayBody written.header = false := by
  unfold isStrayBody
  split
  · rfl
  · exact if_pos rfl

end Written

section Sections

variable (quoted : Text → Text)

/-- The lines after a hunk: the next header, or nothing. -/
def rendered (hunks : List Written) : List Text := hunks.flatMap Written.lines

theorem takeWhile_rendered (hunks : List Written) :
    (rendered hunks).takeWhile (noNewline.isPrefixOf ·) = [] := by
  cases hunks with
  | nil => rfl
  | cons written hunks => rfl

theorem hunkBody_rendered {lines before : List Text} {written : Written} {hunks : List Written}
    (hlines : lines = before ++ rendered (written :: hunks)) (path header : Text) :
    hunkBody quoted lines (before.length + 1) written.counts path header =
      .ok ⟨preImage written.body, postImage written.body,
        (before ++ written.lines).length⟩ := by
  have hdrop : lines.drop (before.length + 1) = written.body ++ rendered hunks := by
    subst hlines
    simp [rendered, Written.lines]
  have hread := bodyFrom_read quoted path header (rendered hunks) written.marked
    (before.length + 1) ⟨written.counts.oldCount, written.counts.newCount, [], []⟩ written.aLimit
    written.bLimit (by simpa [Written.counts] using written.pre)
    (by simpa [Written.counts] using written.post)
  have hafter : lines.drop (before.length + 1 + written.body.length) = rendered hunks := by
    rw [← List.drop_drop, hdrop, List.drop_left]
  unfold hunkBody
  rw [hdrop, hread]
  simp only [hafter, takeWhile_rendered, List.length_nil, List.nil_append, Written.lines,
    List.length_append, List.length_cons, Except.ok.injEq, Body.mk.injEq, true_and]
  omega

theorem getElem?_rendered {lines before : List Text} {written : Written} {hunks : List Written}
    (hlines : lines = before ++ rendered (written :: hunks)) :
    lines[before.length]? = some written.header := by
  subst hlines
  simp [rendered, Written.lines]

theorem lines_eq_next {lines before : List Text} {written : Written} {hunks : List Written}
    (hlines : lines = before ++ rendered (written :: hunks)) :
    lines = (before ++ written.lines) ++ rendered hunks := by
  subst hlines
  simp [rendered]

/-- The first line of `a` that the hunk after this one may claim. -/
def Written.floor (written : Written) : Nat :=
  rangeStart written.aStart written.aEnd + (written.aEnd - written.aStart)

/-- Hunks that a reader takes one after the other: each holds a line of `a`, or the file is new
and it holds a line of `b`, and none starts before the one before it ends. -/
def Follows (newFile : Bool) (floor : Nat) : List Written → Prop
  | [] => True
  | written :: hunks =>
    (written.aStart < written.aEnd ∨ newFile = true ∧ written.bStart < written.bEnd) ∧
      floor ≤ rangeStart written.aStart written.aEnd ∧ Follows newFile written.floor hunks

theorem hunkCounts_rendered {written : Written} {path : Text} {newFile : Bool} {floor : Nat}
    (hlines : written.aStart < written.aEnd ∨ newFile = true ∧ written.bStart < written.bEnd)
    (hfloor : floor ≤ rangeStart written.aStart written.aEnd) :
    hunkCounts quoted written.header ⟨path, newFile⟩ floor = .ok written.counts := by
  have hcrlf : crlf quoted written.header = none := by
    simp [crlf, written.getLast?_header]
  have hsides : ¬ (written.counts.oldCount = 0 ∧ written.counts.newCount = 0) := by
    dsimp only [Written.counts]
    omega
  have hanchor : ¬ (written.counts.oldCount = 0 ∧ newFile = false) := by
    rintro ⟨hzero, rfl⟩
    dsimp only [Written.counts] at hzero
    simp at hlines
    omega
  have hstart : ¬ written.counts.oldStart < floor := by
    dsimp only [Written.counts]
    omega
  unfold hunkCounts
  simp only [hcrlf, written.parseHeader_header, hsides, hanchor, hstart, if_false]

theorem isStrayBody_rendered {hunks : List Written} :
    (rendered hunks).head?.any isStrayBody = false := by
  cases hunks with
  | nil => rfl
  | cons written hunks => exact written.isStrayBody_header

theorem hunk_rendered {lines before : List Text} {written : Written} {hunks : List Written}
    (hwhole : lines = before ++ rendered (written :: hunks)) (path : Text) (index : Nat)
    {newFile : Bool} {floor : Nat}
    (hlines : written.aStart < written.aEnd ∨ newFile = true ∧ written.bStart < written.bEnd)
    (hfloor : floor ≤ rangeStart written.aStart written.aEnd) :
    hunk quoted lines before.length written.header ⟨path, newFile⟩ index floor =
      .ok (written.read path newFile index, (before ++ written.lines).length, written.floor) := by
  have hnext : lines[(before ++ written.lines).length]? = (rendered hunks).head? := by
    rw [lines_eq_next hwhole, List.getElem?_append_right (Nat.le_refl _), Nat.sub_self,
      List.head?_eq_getElem?]
  unfold hunk
  simp only [hunkCounts_rendered quoted hlines hfloor, hunkBody_rendered quoted hwhole, hnext,
    isStrayBody_rendered]
  rfl

/-- The hunks that the reader makes of the rendered ones, numbered from `index`. -/
def readAll (path : Text) (newFile : Bool) (index : Nat) (hunks : List Written) : List Hunk :=
  (hunks.zipIdx index).map fun (written, i) => written.read path newFile i

theorem hunksFrom_rendered {lines before : List Text} {hunks : List Written}
    (hlines : lines = before ++ rendered hunks) {path : Text} {newFile : Bool}
    {resume index floor : Nat} (hfollows : Follows newFile floor hunks) (header : Text)
    (read : List Hunk) :
    hunksFrom quoted lines ⟨path, newFile⟩ resume before.length index floor header read =
      { hunks := read ++ readAll path newFile index hunks
        ordinal := index + hunks.length
        next := lines.length } := by
  induction hunks generalizing before index floor header read with
  | nil =>
    obtain rfl : lines = before := by simpa [rendered] using hlines
    have hunread : unreadContent lines lines.length resume = false := by
      simp [unreadContent, List.drop_eq_nil_of_le]
    rw [hunksFrom]
    split
    · simp [endHunks, hunread, readAll]
    · simp_all
  | cons written hunks ih =>
    obtain ⟨hline, hfloor, hrest⟩ := hfollows
    have hfirst := getElem?_rendered hlines
    have hread := hunk_rendered quoted hlines path index hline hfloor
    rw [hunksFrom]
    split
    · simp_all
    · rename_i line hfound
      obtain rfl : written.header = line := Option.some.inj (hfirst.symm.trans hfound)
      rw [if_pos written.opensHunk_header]
      split
      · simp_all
      · rename_i found after raised hhunk
        obtain ⟨rfl, rfl, rfl⟩ : written.read path newFile index = found ∧
            (before ++ written.lines).length = after ∧ written.floor = raised := by
          simpa using hread.symm.trans hhunk
        rw [ih (lines_eq_next hlines) hrest]
        simp [readAll, Nat.add_comm, Nat.add_left_comm]

/-! ## The whole diff of one file -/

theorem opensSection_append {rest : Text} (h : rest ≠ []) :
    opensSection (oldOpener ++ rest) = true := by
  have hlength := List.length_pos_iff.mpr h
  have hlong : oldOpener.length < (oldOpener ++ rest).length := by
    rw [List.length_append]
    omega
  have hstarts : oldOpener.isPrefixOf (oldOpener ++ rest) = true :=
    List.isPrefixOf_iff_prefix.mpr (List.prefix_append _ _)
  rw [opensSection, hstarts, decide_eq_true hlong]
  rfl

theorem diffLines_joinLines {lines : List Text} (hne : lines ≠ []) (hlines : Unbroken lines)
    (hlast : lines.getLast? ≠ some []) {ending : Text} (hending : ending = [] ∨ ending = ['\n']) :
    diffLines (joinLines lines ++ ending) = lines := by
  unfold diffLines
  rcases hending with rfl | rfl
  · rw [List.append_nil, splitLines_joinLines hne hlines, if_neg hlast]
  · have hjoin : joinLines lines ++ ['\n'] = joinLines (lines ++ [[]]) := by
      rw [joinLines_append hne (by simp), joinLines_singleton]
    have hunbroken : Unbroken (lines ++ [[]]) := by
      intro line hline
      rcases List.mem_append.mp hline with hline | hline
      · exact hlines line hline
      · simp [List.mem_singleton.mp hline]
    rw [hjoin, splitLines_joinLines (by simp) hunbroken]
    simp

/-- A path that the file headers can name: on one line that does not end in a carriage return,
and not empty before the column a tab starts. -/
structure HeaderPath where
  text : Text
  unbroken : '\n' ∉ text
  noReturn : text.getLast? ≠ some '\r'
  named : text.takeWhile (· ≠ '\t') ≠ []

namespace HeaderPath

variable (path : HeaderPath)

/-- The path that the reader takes from the headers. -/
def name : Text := path.text.takeWhile (· ≠ '\t')

theorem text_ne_nil : path.text ≠ [] := by
  intro hnil
  exact path.named (by simp [hnil])

theorem crlf_append (opener : Text) : crlf quoted (opener ++ path.text) = none := by
  have hlast : (opener ++ path.text).getLast? = path.text.getLast? := by
    rw [List.getLast?_append_of_ne_nil _ path.text_ne_nil]
  simp [crlf, hlast, path.noReturn]

/-- The text after `--- `. -/
def oldSide (newFile : Bool) : Text := if newFile then devNull else aSlash ++ path.text

/-- The text after `+++ `. -/
def newSide : Text := bSlash ++ path.text

/-- The two file headers. -/
def fileHeaders (newFile : Bool) : List Text :=
  [oldOpener ++ path.oldSide newFile, newOpener ++ path.newSide]

theorem side_append {opener : Text} (htab : '\t' ∉ opener) (hopener : opener ≠ [])
    (hquote : opener.head? ≠ some '"') (hnull : opener.head? ≠ some '/') :
    (side (opener ++ path.text) opener).path = some path.name ∧
      (side (opener ++ path.text) opener).reason = none := by
  have hvalue : (opener ++ path.text).takeWhile (· ≠ '\t') = opener ++ path.name := by
    rw [List.takeWhile_append_of_pos]
    · rfl
    · intro c hc
      simp only [ne_eq, decide_not, Bool.not_eq_true', decide_eq_false_iff_not]
      rintro rfl
      exact htab hc
  have hhead : (opener ++ path.name).head? = opener.head? := List.head?_append_of_ne_nil _ hopener
  have hdev : opener ++ path.name ≠ devNull := by
    intro heq
    rw [heq] at hhead
    exact hnull hhead.symm
  have hname : path.name ≠ [] := path.named
  unfold side
  simp only [hvalue, hhead, hquote, hdev, hname, if_false, stripPrefix_append, Option.getD_some,
    and_self]

theorem side_new : (side path.newSide bSlash).path = some path.name ∧
    (side path.newSide bSlash).reason = none :=
  path.side_append (by decide) (by decide) (by decide) (by decide)

theorem side_old (newFile : Bool) :
    (side (path.oldSide newFile) aSlash).path = (if newFile then none else some path.name) ∧
      (side (path.oldSide newFile) aSlash).reason = none := by
  cases newFile with
  | true => exact ⟨rfl, rfl⟩
  | false => exact path.side_append (by decide) (by decide) (by decide) (by decide)

/-- The lines of the diff of one file. -/
def diff (newFile : Bool) (hunks : List Written) : List Text :=
  path.fileHeaders newFile ++ rendered hunks

theorem headerLine_old (newFile : Bool) :
    headerLine quoted (oldOpener ++ path.oldSide newFile) none none =
      .pair (some (path.oldSide newFile)) none := by
  have hcrlf : crlf quoted (oldOpener ++ path.oldSide newFile) = none := by
    cases newFile with
    | true => rfl
    | false =>
      rw [oldSide, if_neg (by simp), ← List.append_assoc]
      exact path.crlf_append quoted _
  have hpath : pathLine (oldOpener ++ path.oldSide newFile) none none =
      some (some (path.oldSide newFile), none) := by
    simp [pathLine, stripPrefix_append]
  have hhunk : opensHunk (oldOpener ++ path.oldSide newFile) = false := rfl
  simp only [headerLine, hhunk, hpath, hcrlf, Bool.false_eq_true, if_false]

theorem headerLine_new (old : Text) :
    headerLine quoted (newOpener ++ path.newSide) (some old) none =
      .pair (some old) (some path.newSide) := by
  have hcrlf : crlf quoted (newOpener ++ path.newSide) = none := by
    rw [newSide, ← List.append_assoc]
    exact path.crlf_append quoted _
  have hpath : pathLine (newOpener ++ path.newSide) (some old) none =
      some (some old, some path.newSide) := by
    simp [pathLine, stripPrefix_append]
  have hhunk : opensHunk (newOpener ++ path.newSide) = false := rfl
  simp only [headerLine, hhunk, hpath, hcrlf, Bool.false_eq_true, if_false]

theorem headers_diff (newFile : Bool) (written : Written) (hunks : List Written) :
    headers quoted (path.diff newFile (written :: hunks)) 0
        (oldOpener ++ path.oldSide newFile) =
      { oldRaw := some (path.oldSide newFile)
        newRaw := some path.newSide
        next := 2
        gitSection := false } := by
  have hopening : opening quoted (oldOpener ++ path.oldSide newFile) 0 =
      { next := 0, gitSection := false } := rfl
  have hended : headerLine quoted written.header (some (path.oldSide newFile))
      (some path.newSide) = .ended := by
    simp [headerLine, written.opensHunk_header]
  have hlines : path.diff newFile (written :: hunks) =
      (oldOpener ++ path.oldSide newFile) :: (newOpener ++ path.newSide) :: written.header ::
        (written.body ++ rendered hunks) := rfl
  simp only [headers, hopening, hlines, Option.isSome_none, Bool.false_eq_true, if_false,
    List.drop_zero, headersFrom, path.headerLine_old quoted, path.headerLine_new quoted, hended]

theorem pathsThenHunks_diff {newFile : Bool} {lines : List Text} {at_ : Nat} (label : Option Text)
    (ordinal resume : Nat) :
    pathsThenHunks quoted lines (path.oldSide newFile) path.newSide at_ label ordinal resume =
      Patch.hunks quoted lines at_ ⟨path.name, newFile⟩ ordinal resume := by
  obtain ⟨hold, holdReason⟩ := path.side_old newFile
  obtain ⟨hnew, hnewReason⟩ := path.side_new
  unfold pathsThenHunks
  cases newFile <;> simp_all

theorem fileSection_diff {newFile : Bool} {hunks : List Written} (hne : hunks ≠ [])
    (hfollows : Follows newFile 0 hunks) :
    fileSection quoted (path.diff newFile hunks) 0 (oldOpener ++ path.oldSide newFile) 0 =
      { hunks := readAll path.name newFile 0 hunks
        ordinal := hunks.length
        next := (path.diff newFile hunks).length } := by
  cases hunks with
  | nil => exact absurd rfl hne
  | cons written hunks =>
    have hread := path.headers_diff quoted newFile written hunks
    have hlines : path.diff newFile (written :: hunks) =
      path.fileHeaders newFile ++ rendered (written :: hunks) := rfl
    have hfirst : (path.diff newFile (written :: hunks))[2]? = some written.header :=
      getElem?_rendered hlines
    unfold fileSection
    simp only [hread, Bool.false_eq_true, if_false]
    rw [path.pathsThenHunks_diff quoted, Patch.hunks, hfirst]
    simp only [written.opensHunk_header, if_true]
    refine (hunksFrom_rendered quoted hlines hfollows _ _).trans ?_
    simp

theorem sectionsFrom_diff {newFile : Bool} {hunks : List Written} (hne : hunks ≠ [])
    (hfollows : Follows newFile 0 hunks) :
    sectionsFrom quoted (path.diff newFile hunks) 0 0 0 {} =
      { hunks := readAll path.name newFile 0 hunks } := by
  have hfirst : (path.diff newFile hunks)[0]? = some (oldOpener ++ path.oldSide newFile) := rfl
  have hside : path.oldSide newFile ≠ [] := by
    cases newFile <;> exact List.cons_ne_nil _ _
  have hopens := opensSection_append hside
  have hcombined : combined.any (·.isPrefixOf (oldOpener ++ path.oldSide newFile)) = false := rfl
  have hend : (path.diff newFile hunks)[(path.diff newFile hunks).length]? = none := by simp
  have hlast (parsed : DiffHunks) : sectionsFrom quoted (path.diff newFile hunks)
      (path.diff newFile hunks).length hunks.length 1 parsed = parsed := by
    rw [sectionsFrom]
    split
    · simp
    · simp_all
  rw [sectionsFrom]
  split
  · simp_all
  · rename_i line hline
    obtain rfl : oldOpener ++ path.oldSide newFile = line :=
      Option.some.inj (hfirst.symm.trans hline)
    simp only [hcombined, hopens, Bool.false_eq_true, if_false, dif_pos,
      path.fileSection_diff quoted hne hfollows]
    rw [hlast]
    simp

theorem unbroken_diff (newFile : Bool) {hunks : List Written}
    (hbodies : ∀ written ∈ hunks, Unbroken written.body) : Unbroken (path.diff newFile hunks) := by
  have hpath := path.unbroken
  have hopener {opener side : Text} (h : '\n' ∉ opener) (hside : '\n' ∉ side) :
      '\n' ∉ opener ++ side := fun hmem => (List.mem_append.mp hmem).elim h hside
  have hold : '\n' ∉ path.oldSide newFile := by
    cases newFile with
    | true => exact (by decide : '\n' ∉ devNull)
    | false => exact hopener (by decide) hpath
  intro line hline
  simp only [diff, fileHeaders, rendered, Written.lines, List.mem_append, List.mem_cons,
    List.not_mem_nil, or_false, List.mem_flatMap] at hline
  rcases hline with (rfl | rfl) | ⟨written, hwritten, rfl | hbody⟩
  · exact hopener (by decide) hold
  · exact hopener (by decide) (hopener (by decide) hpath)
  · exact newline_notMem_hunkHeader _ _ _ _
  · exact hbodies written hwritten line hbody

theorem ne_nil_of_mem_diff {newFile : Bool} {hunks : List Written} {line : Text}
    (hline : line ∈ path.diff newFile hunks) : line ≠ [] := by
  simp only [diff, fileHeaders, rendered, Written.lines, List.mem_append, List.mem_cons,
    List.not_mem_nil, or_false, List.mem_flatMap] at hline
  rcases hline with (rfl | rfl) | ⟨written, hwritten, rfl | hbody⟩
  · exact List.cons_ne_nil _ _
  · exact List.cons_ne_nil _ _
  · exact List.cons_ne_nil _ _
  · obtain ⟨marker, content, rfl, -⟩ := written.marked line hbody
    exact List.cons_ne_nil _ _

/-- The text of a rendered diff, with or without a line break at its end, reads as its hunks. -/
theorem diffHunks_diff {newFile : Bool} {hunks : List Written} (hne : hunks ≠ [])
    (hfollows : Follows newFile 0 hunks) (hbodies : ∀ written ∈ hunks, Unbroken written.body)
    {ending : Text} (hending : ending = [] ∨ ending = ['\n']) :
    diffHunks quoted (joinLines (path.diff newFile hunks) ++ ending) =
      { hunks := readAll path.name newFile 0 hunks } := by
  have hlines : path.diff newFile hunks ≠ [] := List.cons_ne_nil _ _
  have hlast : (path.diff newFile hunks).getLast? ≠ some [] := fun hlast =>
    path.ne_nil_of_mem_diff (List.mem_of_getLast? hlast) rfl
  rw [diffHunks, diffLines_joinLines hlines (path.unbroken_diff newFile hbodies) hlast hending]
  exact path.sectionsFrom_diff quoted hne hfollows

end HeaderPath

end Sections

end Agentless.Patch
