import EzPacker.Lib.BinarySearch
import Mathlib.Algebra.Group.Nat.Defs
import Mathlib.Data.List.DropRight

/-!
# Source positions

The source manager scans a file once for its lines and finds the line of an offset by a binary
search. A reference has the offset where it begins and the one where it ends, which is cut at the
end of the file after an addition of machine integers.
-/

namespace EzPacker.Sources

open List Option

/-! ## The line table -/

structure SourceLineRange where
  beginOffset : ℕ
  endOffset : ℕ
  lineNumber : ℕ
  deriving DecidableEq, Repr

def SourceLineRange.length (line : SourceLineRange) : ℕ := line.endOffset - line.beginOffset

def newline : UInt8 := 10

/-- The state of the loop over the content. -/
structure Scan where
  lineStart : ℕ
  lineNumber : ℕ
  lines : List SourceLineRange

def scanStep (content : List UInt8) (s : Scan) (i : ℕ) : Scan :=
  if content[i]? = some newline then
    ⟨i + 1, s.lineNumber + 1, s.lines ++ [⟨s.lineStart, i, s.lineNumber⟩]⟩
  else s

def scan (content : List UInt8) (i : ℕ) : Scan :=
  (range i).foldl (scanStep content) ⟨0, 1, []⟩

/-- A newline at the end starts no line. -/
def populateLineRanges (content : List UInt8) : List SourceLineRange :=
  let s := scan content content.length
  if content = [] ∨ content.getLast? ≠ some newline then
    s.lines ++ [⟨s.lineStart, content.length, s.lineNumber⟩]
  else s.lines

/-- The first line that begins behind an offset. -/
def upperBound (lines : List SourceLineRange) (offset : ℕ) : ℕ :=
  Lib.partitionPoint (fun i => (lines[i]?.any fun line => offset < line.beginOffset))
    lines.length 0 lines.length

def lineOf (lines : List SourceLineRange) (offset : ℕ) : Option SourceLineRange :=
  match upperBound lines offset with
  | 0 => none
  | i + 1 => lines[i]?.filter fun line =>
    line.beginOffset ≤ offset ∧ offset ≤ line.endOffset

/-! ## The manager -/

structure SourceFileEntry where
  content : List UInt8
  name : String
  lines : List SourceLineRange
  deriving DecidableEq, Repr

structure SourceReference where
  beginOffset : ℕ
  endOffset : ℕ
  sourceFileId : ℕ
  deriving DecidableEq, Repr

def SourceReference.length (ref : SourceReference) : ℕ := ref.endOffset - ref.beginOffset

/-- The entries by their ids, none at zero, and the ids by their names. -/
structure SourceManager where
  sourceFiles : List (Option SourceFileEntry)
  pathToIdMap : List (String × ℕ)

namespace SourceManager

def new : SourceManager := ⟨[none], []⟩

def createEntry (content : List UInt8) (name : String) : SourceFileEntry :=
  ⟨content, name, populateLineRanges content⟩

def registerEntry (m : SourceManager) (entry : SourceFileEntry) : SourceManager × ℕ :=
  (⟨m.sourceFiles ++ [some entry], m.pathToIdMap ++ [(entry.name, m.sourceFiles.length)]⟩,
    m.sourceFiles.length)

def addSourceContent (m : SourceManager) (name : String) (content : List UInt8) :
    SourceManager × ℕ :=
  match m.pathToIdMap.lookup name with
  | some _ => (m, 0)
  | none => m.registerEntry (createEntry content name)

def loadFile (m : SourceManager) (canonicalName : String) (read : Option (List UInt8)) :
    SourceManager × Option ℕ :=
  match m.pathToIdMap.lookup canonicalName, read with
  | some id, _ => (m, some id)
  | none, none => (m, none)
  | none, some content =>
    let (m, id) := m.registerEntry (createEntry content canonicalName)
    (m, some id)

def entryOf (m : SourceManager) (id : ℕ) : Option SourceFileEntry :=
  if id = 0 then none else m.sourceFiles[id]?.join

/-- The end of a reference is added up in a machine integer. -/
def createReference (m : SourceManager) (startOffset length sourceId : ℕ) :
    Option SourceReference :=
  match m.entryOf sourceId with
  | none => none
  | some entry =>
    let fileLength := entry.content.length
    if fileLength < startOffset then none
    else some ⟨startOffset, min ((startOffset + length) % 2 ^ 64) fileLength, sourceId⟩

def getReferenceLine (m : SourceManager) (ref : SourceReference) : Option SourceLineRange :=
  match m.entryOf ref.sourceFileId with
  | none => none
  | some entry => lineOf entry.lines ref.beginOffset

def getRawLineContent (m : SourceManager) (ref : SourceReference) : List UInt8 :=
  match m.entryOf ref.sourceFileId, m.getReferenceLine ref with
  | some entry, some line => (entry.content.drop line.beginOffset).take line.length
  | _, _ => []

def getReferenceContent (m : SourceManager) (ref : SourceReference) : List UInt8 :=
  match m.entryOf ref.sourceFileId with
  | none => []
  | some entry =>
    if entry.content.length < ref.beginOffset ∨ entry.content.length < ref.endOffset ∨
        ref.endOffset < ref.beginOffset then []
    else (entry.content.drop ref.beginOffset).take ref.length

end SourceManager

/-- What registers a file. -/
inductive Operation where
  | addSourceContent (name : String) (content : List UInt8)
  | loadFile (canonicalName : String) (read : Option (List UInt8))

def step (m : SourceManager) : Operation → SourceManager
  | .addSourceContent name content => (m.addSourceContent name content).1
  | .loadFile canonicalName read => (m.loadFile canonicalName read).1

def run (ops : List Operation) : SourceManager := ops.foldl step .new

/-! ## Positions -/

/-- The line around an offset, without its newline. -/
def lineText (content : List UInt8) (offset : ℕ) : List UInt8 :=
  (content.take offset).rtakeWhile (· ≠ newline) ++ (content.drop offset).takeWhile (· ≠ newline)

/-- The record and the text of the line of an offset. -/
structure LineExact (content : List UInt8) (offset : ℕ) (line : SourceLineRange)
    (text : List UInt8) : Prop where
  number : line.lineNumber = 1 + (content.take offset).count newline
  begins : line.beginOffset ≤ offset
  ends : offset ≤ line.endOffset
  text : text = lineText content offset

/-- The end of a file with a newline at its end has no line. -/
def BehindLastNewline (content : List UInt8) (offset : ℕ) : Prop :=
  offset = content.length ∧ content.getLast? = some newline

/-- A reference to an offset and a length is made, and its line and its content are found. -/
def PositionExact (m : SourceManager) (id : ℕ) (content : List UInt8) (offset length : ℕ) : Prop :=
  ∃ ref, m.createReference offset length id = some ref ∧
    (BehindLastNewline content offset ∧ m.getReferenceLine ref = none ∨
      ¬BehindLastNewline content offset ∧ ∃ line, m.getReferenceLine ref = some line ∧
        LineExact content offset line (m.getRawLineContent ref)) ∧
    m.getReferenceContent ref = (content.drop offset).take length

/-! ## The scan -/

/-- A text between the newline in front of it, or the begin of the file, and what follows. -/
structure LineAround (content : List UInt8) (line : SourceLineRange)
    (before text after : List UInt8) : Prop where
  content_eq : content = before ++ text ++ after
  free : newline ∉ text
  starts : before = [] ∨ before.getLast? = some newline
  begins : line.beginOffset = before.length
  ends : line.endOffset = before.length + text.length
  number : line.lineNumber = 1 + before.count newline

/-- What was scanned: the closed lines are all those in front of the open one. -/
structure Scanned (pre : List UInt8) (s : Scan) : Prop where
  current : ∃ text, LineAround pre ⟨s.lineStart, pre.length, s.lineNumber⟩
    (pre.take s.lineStart) text []
  closed : ∀ line ∈ s.lines, ∃ before text after, LineAround pre line before text (newline :: after)
  ended : ∀ line ∈ s.lines, line.endOffset < s.lineStart
  sorted : s.lines.Pairwise fun line next => line.endOffset < next.beginOffset
  covers : ∀ o < s.lineStart, ∃ line ∈ s.lines, line.beginOffset ≤ o ∧ o ≤ line.endOffset

theorem Scanned.init : Scanned [] ⟨0, 1, []⟩ :=
  ⟨⟨[], rfl, not_mem_nil, .inl rfl, rfl, rfl, rfl⟩, nofun, nofun, Pairwise.nil, nofun⟩

/-- The open line goes on, or is closed by a newline. -/
theorem Scanned.step {pre : List UInt8} {s : Scan} (h : Scanned pre s) (c : UInt8) :
    Scanned (pre ++ [c])
      (if c = newline then
        ⟨pre.length + 1, s.lineNumber + 1, s.lines ++ [⟨s.lineStart, pre.length, s.lineNumber⟩]⟩
      else s) := by
  obtain ⟨⟨text, hpre, hfree, hstarts, hbegins, hends, hnumber⟩, hclosed, hended, hsorted,
    hcovers⟩ := h
  dsimp only at hbegins hends hnumber
  rw [append_nil] at hpre
  have hold : ∀ line ∈ s.lines, ∃ before text after,
      LineAround (pre ++ [c]) line before text (newline :: after) := by
    intro line hline
    obtain ⟨before, text', after, hline⟩ := hclosed line hline
    refine ⟨before, text', after ++ [c], ?_, hline.free, hline.starts, hline.begins, hline.ends,
      hline.number⟩
    rw [hline.content_eq]
    simp
  have hle : s.lineStart ≤ pre.length := by omega
  have htake : (pre ++ [c]).take s.lineStart = pre.take s.lineStart :=
    take_append_of_le_length hle
  split_ifs with hc
  · obtain rfl := hc
    have hnew : LineAround (pre ++ [newline]) ⟨s.lineStart, pre.length, s.lineNumber⟩
        (pre.take s.lineStart) text (newline :: []) :=
      ⟨by rw [← hpre], hfree, hstarts, hbegins, hends, hnumber⟩
    refine ⟨⟨[], ?_⟩, ?_, ?_, ?_, ?_⟩
    · have hall : (pre ++ [newline]).take (pre.length + 1) = pre ++ [newline] :=
        take_of_length_le (by simp)
      dsimp only
      rw [hall]
      refine ⟨by simp, not_mem_nil, .inr getLast?_concat, by simp, by simp, ?_⟩
      have hcount : (pre ++ [newline]).count newline =
          (pre.take s.lineStart).count newline + 1 := by
        conv_lhs => rw [hpre]
        rw [count_append, count_append, count_eq_zero_of_not_mem hfree]
        simp
      rw [hcount, hnumber, Nat.add_assoc]
    · intro line hline
      rcases mem_append.mp hline with hline | hline
      · exact hold line hline
      · obtain rfl := mem_singleton.mp hline
        exact ⟨_, _, _, hnew⟩
    · intro line hline
      rcases mem_append.mp hline with hline | hline
      · have := hended line hline
        dsimp only
        omega
      · obtain rfl := mem_singleton.mp hline
        exact Nat.lt_succ_self _
    · refine pairwise_append.mpr ⟨hsorted, pairwise_singleton _ _, ?_⟩
      intro line hline next hnext
      obtain rfl := mem_singleton.mp hnext
      exact hended line hline
    · intro o ho
      by_cases hlt : o < s.lineStart
      · obtain ⟨line, hline, hcover⟩ := hcovers o hlt
        exact ⟨line, mem_append_left _ hline, hcover⟩
      · exact ⟨_, mem_append_right _ (mem_singleton_self _), not_lt.mp hlt, Nat.le_of_lt_succ ho⟩
  · refine ⟨⟨text ++ [c], ?_⟩, hold, hended, hsorted, hcovers⟩
    rw [htake]
    refine ⟨?_, ?_, hstarts, hbegins, ?_, hnumber⟩
    · conv_lhs => rw [hpre]
      simp
    · intro hmem
      rcases mem_append.mp hmem with hmem | hmem
      · exact hfree hmem
      · exact hc (mem_singleton.mp hmem).symm
    · simp only [length_append, length_singleton]
      omega

theorem scanned_scan (content : List UInt8) (i : ℕ) (hi : i ≤ content.length) :
    Scanned (content.take i) (scan content i) := by
  induction i with
  | zero => exact Scanned.init
  | succ i ih =>
    have hlt : i < content.length := hi
    have hstep := (ih hlt.le).step content[i]
    have hlength : (content.take i).length = i := length_take_of_le hlt.le
    rw [hlength, ← take_succ_eq_append_getElem hlt] at hstep
    have hscan : scan content (i + 1) = if content[i] = newline then
        ⟨i + 1, (scan content i).lineNumber + 1, (scan content i).lines ++
          [⟨(scan content i).lineStart, i, (scan content i).lineNumber⟩]⟩
        else scan content i := by
      unfold scan
      rw [range_succ, foldl_append]
      change scanStep content _ i = _
      unfold scanStep
      rw [getElem?_eq_getElem hlt]
      simp only [some.injEq]
    rwa [hscan]

/-- The table of the lines of a file. -/
structure LineTable (content : List UInt8) (lines : List SourceLineRange) : Prop where
  isLine : ∀ line ∈ lines, ∃ before text after, LineAround content line before text after ∧
    (after = [] ∨ after.head? = some newline)
  sorted : lines.Pairwise fun line next => line.endOffset < next.beginOffset
  covers : ∀ o ≤ content.length, ¬BehindLastNewline content o →
    ∃ line ∈ lines, line.beginOffset ≤ o ∧ o ≤ line.endOffset
  ended : ∀ o, BehindLastNewline content o → ∀ line ∈ lines, line.endOffset < o

theorem lineTable_populateLineRanges (content : List UInt8) :
    LineTable content (populateLineRanges content) := by
  have hscan := scanned_scan content content.length le_rfl
  rw [take_of_length_le le_rfl] at hscan
  obtain ⟨⟨text, hcurrent⟩, hclosed, hended, hsorted, hcovers⟩ := hscan
  have hlines : ∀ line ∈ (scan content content.length).lines, ∃ before text after,
      LineAround content line before text after ∧ (after = [] ∨ after.head? = some newline) := by
    intro line hline
    obtain ⟨before, text, after, h⟩ := hclosed line hline
    exact ⟨before, text, newline :: after, h, .inr rfl⟩
  have hstart : (scan content content.length).lineStart ≤ content.length := by
    have hbegins := hcurrent.begins
    have hends := hcurrent.ends
    dsimp only at hbegins hends
    omega
  unfold populateLineRanges
  dsimp only
  split_ifs with hlast
  · have hnot (o : ℕ) : ¬BehindLastNewline content o := by
      rintro ⟨-, hnewline⟩
      rcases hlast with rfl | hlast
      · cases hnewline
      · exact hlast hnewline
    refine ⟨?_, ?_, ?_, fun o ho => absurd ho (hnot o)⟩
    · intro line hline
      rcases mem_append.mp hline with hline | hline
      · exact hlines line hline
      · obtain rfl := mem_singleton.mp hline
        exact ⟨_, _, _, hcurrent, .inl rfl⟩
    · refine pairwise_append.mpr ⟨hsorted, pairwise_singleton _ _, ?_⟩
      intro line hline next hnext
      obtain rfl := mem_singleton.mp hnext
      exact hended line hline
    · intro o ho _
      by_cases hlt : o < (scan content content.length).lineStart
      · obtain ⟨line, hline, hcover⟩ := hcovers o hlt
        exact ⟨line, mem_append_left _ hline, hcover⟩
      · exact ⟨_, mem_append_right _ (mem_singleton_self _), not_lt.mp hlt, ho⟩
  · -- the open line is empty and stands behind the newline
    have hnewline : content.getLast? = some newline := by tauto
    have htext : text = [] := by
      cases text using reverseRecOn with
      | nil => rfl
      | append_singleton text c =>
        refine absurd ?_ hcurrent.free
        have hcontent := hcurrent.content_eq
        rw [append_nil, ← append_assoc] at hcontent
        rw [hcontent, getLast?_concat] at hnewline
        rw [some.inj hnewline]
        exact mem_append_right _ (mem_singleton_self _)
    have heq : (scan content content.length).lineStart = content.length := by
      have hbegins := hcurrent.begins
      have hends := hcurrent.ends
      rw [htext] at hends
      dsimp only [length_nil] at hbegins hends
      omega
    rw [heq] at hended hcovers
    refine ⟨hlines, hsorted, fun o ho hnot => hcovers o ?_, ?_⟩
    · exact lt_of_le_of_ne ho fun h => hnot ⟨h, hnewline⟩
    · rintro o ⟨rfl, -⟩ line hline
      exact hended line hline

/-! ## The line of an offset -/

/-- The search finds the line that covers an offset. -/
theorem lineOf_eq {content : List UInt8} {lines : List SourceLineRange}
    (h : LineTable content lines) {line : SourceLineRange} (hline : line ∈ lines) {o : ℕ}
    (hbegin : line.beginOffset ≤ o) (hend : o ≤ line.endOffset) : lineOf lines o = some line := by
  obtain ⟨k, hk, rfl⟩ := getElem_of_mem hline
  have hgap {i j : ℕ} (hi : i < lines.length) (hj : j < lines.length) (hij : i < j) :
      lines[i].endOffset < lines[j].beginOffset :=
    pairwise_iff_getElem.mp h.sorted i j hi hj hij
  have hle {i : ℕ} (hi : i < lines.length) : lines[i].beginOffset ≤ lines[i].endOffset := by
    obtain ⟨before, text, after, haround, -⟩ := h.isLine _ (getElem_mem hi)
    rw [haround.begins, haround.ends]
    exact Nat.le_add_right _ _
  let p : ℕ → Bool := fun i => (lines[i]?.any fun line => o < line.beginOffset)
  have hp {i : ℕ} (hi : i < lines.length) : p i = true ↔ o < lines[i].beginOffset := by
    change (lines[i]?.any _) = true ↔ _
    rw [getElem?_eq_getElem hi]
    exact decide_eq_true_iff
  obtain ⟨-, hge, hbelow, habove⟩ := @Lib.separates_partitionPoint p lines.length 0
    lines.length le_rfl fun i j _ hij hj hi => by
      rw [Nat.zero_add] at hj
      rw [hp hj]
      rw [hp (hij.trans_lt hj)] at hi
      rcases hij.lt_or_eq with hlt | rfl
      · exact hi.trans_le ((hle (hlt.trans hj)).trans (hgap (hlt.trans hj) hj hlt).le)
      · exact hi
  have hbound : upperBound lines o = k + 1 := by
    change Lib.partitionPoint p lines.length 0 lines.length = k + 1
    generalize Lib.partitionPoint p lines.length 0 lines.length = r at hge hbelow habove ⊢
    rw [Nat.zero_add] at hge
    by_contra hne
    rcases Nat.lt_or_gt_of_ne hne with hlt | hgt
    · have habove := habove k (by omega) (by omega)
      rw [hp hk] at habove
      omega
    · have hnext : k + 1 < lines.length := by omega
      have hbelow := hbelow (k + 1) (Nat.zero_le _) hgt
      have hafter := hgap hk hnext (Nat.lt_succ_self k)
      rw [Bool.eq_false_iff, Ne, hp hnext] at hbelow
      omega
  unfold lineOf
  rw [hbound]
  dsimp only
  rw [getElem?_eq_getElem hk]
  exact filter_eq_some_iff.mpr ⟨rfl, decide_eq_true ⟨hbegin, hend⟩⟩

theorem lineOf_eq_none {lines : List SourceLineRange} {o : ℕ}
    (h : ∀ line ∈ lines, line.endOffset < o) : lineOf lines o = none := by
  unfold lineOf
  cases upperBound lines o with
  | zero => rfl
  | succ i =>
    refine eq_none_iff_forall_ne_some.mpr fun line hline => ?_
    obtain ⟨hmem, hcover⟩ := filter_eq_some_iff.mp hline
    have hend := h line (mem_of_getElem? hmem)
    have hcover := of_decide_eq_true hcover
    omega

variable {text : List UInt8} {entry : SourceFileEntry} {m : SourceManager}

theorem takeWhile_ne_newline {after : List UInt8} (hfree : newline ∉ text)
    (hafter : after = [] ∨ after.head? = some newline) :
    (text ++ after).takeWhile (· ≠ newline) = text := by
  have htext : ∀ c ∈ text, decide (c ≠ newline) = true := fun c hc =>
    decide_eq_true fun heq => hfree (heq ▸ hc)
  rw [takeWhile_append_of_pos htext]
  cases after with
  | nil => exact append_nil _
  | cons c after =>
    obtain rfl : c = newline := by simpa using hafter
    rw [takeWhile_cons_of_neg (by simp), append_nil]

theorem rtakeWhile_ne_newline {before : List UInt8} (hfree : newline ∉ text)
    (hbefore : before = [] ∨ before.getLast? = some newline) :
    (before ++ text).rtakeWhile (· ≠ newline) = text := by
  unfold rtakeWhile
  rw [reverse_append, takeWhile_ne_newline, reverse_reverse]
  · exact fun h => hfree (mem_reverse.mp h)
  · rcases hbefore with rfl | h
    · exact .inl rfl
    · exact .inr (by rw [head?_reverse, h])

theorem LineAround.exact {content : List UInt8} {line : SourceLineRange} {before after : List UInt8}
    (h : LineAround content line before text after)
    (hafter : after = [] ∨ after.head? = some newline) {o : ℕ} (hbegin : line.beginOffset ≤ o)
    (hend : o ≤ line.endOffset) :
    LineExact content o line ((content.drop line.beginOffset).take line.length) := by
  obtain ⟨hcontent, hfree, hstarts, hbegins, hends, hnumber⟩ := h
  have hlength : line.length = text.length := by
    unfold SourceLineRange.length
    omega
  obtain ⟨k, rfl⟩ := Nat.exists_eq_add_of_le (hbegins ▸ hbegin)
  have hk : k ≤ text.length := by omega
  have htake : content.take (before.length + k) = before ++ text.take k := by
    rw [hcontent, append_assoc, take_append, Nat.add_sub_cancel_left,
      take_append_of_le_length hk, take_of_length_le (Nat.le_add_right _ _)]
  have hdrop : content.drop (before.length + k) = text.drop k ++ after := by
    rw [hcontent, append_assoc, drop_append, Nat.add_sub_cancel_left,
      drop_append_of_le_length hk, drop_of_length_le (Nat.le_add_right _ _),
      nil_append]
  have hfreeTake : newline ∉ text.take k := fun h => hfree (mem_of_mem_take h)
  have hfreeDrop : newline ∉ text.drop k := fun h => hfree (mem_of_mem_drop h)
  refine ⟨?_, hbegin, hend, ?_⟩
  · rw [hnumber, htake, count_append, count_eq_zero_of_not_mem hfreeTake, Nat.add_zero]
  · unfold lineText
    rw [htake, hdrop, rtakeWhile_ne_newline hfreeTake hstarts,
      takeWhile_ne_newline hfreeDrop hafter, take_append_drop, hlength, hbegins, hcontent,
      append_assoc, drop_left, take_left]

/-! ## Registered files -/

/-- Every entry has the table of its content. -/
def Registered (m : SourceManager) : Prop :=
  ∀ id entry, m.entryOf id = some entry → entry.lines = populateLineRanges entry.content

theorem entryOf_registerEntry {entry' : SourceFileEntry} {id : ℕ}
    (h : (m.registerEntry entry).1.entryOf id = some entry') :
    m.entryOf id = some entry' ∨ entry' = entry := by
  unfold SourceManager.entryOf at h ⊢
  split_ifs at h ⊢ with hid
  have hslot := join_eq_some_iff.mp h
  unfold SourceManager.registerEntry at hslot
  rw [getElem?_append] at hslot
  split_ifs at hslot
  · exact .inl (join_eq_some_iff.mpr hslot)
  · have hmem := mem_singleton.mp (mem_of_getElem? hslot)
    exact .inr (some.inj hmem)

theorem Registered.registerEntry (h : Registered m) (content : List UInt8) (name : String) :
    Registered (m.registerEntry (SourceManager.createEntry content name)).1 := by
  intro id entry hentry
  rcases entryOf_registerEntry hentry with hold | rfl
  · exact h id entry hold
  · rfl

theorem Registered.step (h : Registered m) (op : Operation) : Registered (step m op) := by
  cases op with
  | addSourceContent name content =>
    unfold Sources.step SourceManager.addSourceContent
    dsimp only
    split
    · exact h
    · exact h.registerEntry content name
  | loadFile canonicalName read =>
    unfold Sources.step SourceManager.loadFile
    dsimp only
    split
    · exact h
    · exact h
    · exact h.registerEntry _ canonicalName

theorem registered_run (ops : List Operation) : Registered (run ops) := by
  induction ops using reverseRecOn with
  | nil =>
    intro id entry hentry
    unfold SourceManager.entryOf at hentry
    split_ifs at hentry with hid
    obtain ⟨id, rfl⟩ := Nat.exists_eq_succ_of_ne_zero hid
    cases hentry
  | append_singleton ops op ih =>
    unfold run
    rw [foldl_append]
    exact ih.step op

/-! ## Exact positions -/

theorem createReference_eq {id : ℕ} (hentry : m.entryOf id = some entry) {start : ℕ}
    (hstart : start ≤ entry.content.length) (length : ℕ) : m.createReference start length id =
      some ⟨start, min ((start + length) % 2 ^ 64) entry.content.length, id⟩ := by
  unfold SourceManager.createReference
  rw [hentry]
  exact if_neg (not_lt.mpr hstart)

theorem line_exact (h : Registered m) {id : ℕ} (hentry : m.entryOf id = some entry) {start : ℕ}
    (hstart : start ≤ entry.content.length) (stop : ℕ) :
    let ref : SourceReference := ⟨start, stop, id⟩
    BehindLastNewline entry.content start ∧ m.getReferenceLine ref = none ∨
      ¬BehindLastNewline entry.content start ∧ ∃ line, m.getReferenceLine ref = some line ∧
        LineExact entry.content start line (m.getRawLineContent ref) := by
  dsimp only
  have htable := lineTable_populateLineRanges entry.content
  rw [← h id entry hentry] at htable
  have hreference : m.getReferenceLine ⟨start, stop, id⟩ = lineOf entry.lines start := by
    unfold SourceManager.getReferenceLine
    rw [hentry]
  rw [hreference]
  by_cases hbehind : BehindLastNewline entry.content start
  · exact .inl ⟨hbehind, lineOf_eq_none (htable.ended start hbehind)⟩
  · obtain ⟨line, hline, hbegin, hend⟩ := htable.covers start hstart hbehind
    have hfound := lineOf_eq htable hline hbegin hend
    refine .inr ⟨hbehind, line, hfound, ?_⟩
    obtain ⟨before, text, after, haround, hafter⟩ := htable.isLine line hline
    have hraw : m.getRawLineContent ⟨start, stop, id⟩ =
        (entry.content.drop line.beginOffset).take line.length := by
      unfold SourceManager.getRawLineContent
      rw [hreference, hfound, hentry]
    rw [hraw]
    exact haround.exact hafter hbegin hend

/-- The content of a reference is the one that was asked for exactly when the end does not wrap. -/
theorem content_exact_iff {id : ℕ} (hentry : m.entryOf id = some entry) {start length : ℕ}
    (hstart : start ≤ entry.content.length) (hsize : entry.content.length < 2 ^ 64)
    (hlength : length < 2 ^ 64) :
    m.getReferenceContent ⟨start, min ((start + length) % 2 ^ 64) entry.content.length, id⟩ =
      (entry.content.drop start).take length ↔
        start + length < 2 ^ 64 ∨ start = entry.content.length := by
  unfold SourceManager.getReferenceContent
  rw [hentry]
  dsimp only [SourceReference.length]
  by_cases hwrap : start + length < 2 ^ 64
  · -- the end is the sum, cut at the end of the file
    rw [Nat.mod_eq_of_lt hwrap, if_neg (by omega)]
    refine iff_of_true ?_ (.inl hwrap)
    by_cases hend : start + length ≤ entry.content.length
    · rw [min_eq_left hend, Nat.add_sub_cancel_left]
    · rw [min_eq_right (by omega), take_of_length_le (by rw [length_drop]),
        take_of_length_le (by rw [length_drop]; omega)]
  · -- the end stands in front of the begin
    have hmod : (start + length) % 2 ^ 64 = start + length - 2 ^ 64 := by
      rw [Nat.mod_eq_sub_mod (not_lt.mp hwrap), Nat.mod_eq_of_lt (by omega)]
    rw [hmod, if_pos (by omega), or_iff_right hwrap]
    constructor
    · intro hempty
      have hlen := congrArg List.length hempty.symm
      rw [length_take, length_drop, length_nil] at hlen
      omega
    · rintro rfl
      rw [drop_length, take_nil]

/-- Positions are exact exactly where the end of the reference is a machine integer, or the offset
is the end of the file. -/
theorem positionExact_iff (ops : List Operation) (id : ℕ) (entry : SourceFileEntry)
    (hentry : (run ops).entryOf id = some entry) (hsize : entry.content.length < 2 ^ 64)
    (start length : ℕ) (hstart : start ≤ entry.content.length) (hlength : length < 2 ^ 64) :
    PositionExact (run ops) id entry.content start length ↔
      start + length < 2 ^ 64 ∨ start = entry.content.length := by
  have hcreate := createReference_eq hentry hstart length
  rw [← content_exact_iff hentry hstart hsize hlength]
  constructor
  · rintro ⟨ref, href, -, hcontent⟩
    obtain rfl := some.inj (hcreate.symm.trans href)
    exact hcontent
  · intro hcontent
    exact ⟨_, hcreate, line_exact (registered_run ops) hentry hstart _, hcontent⟩

/-- A file of three lines; the offset is in the second. -/
theorem positionExact_second : PositionExact
    (run [.addSourceContent "a" [97, 10, 98, 99, 10, 100]]) 1 [97, 10, 98, 99, 10, 100] 3 2 :=
  (positionExact_iff [.addSourceContent "a" [97, 10, 98, 99, 10, 100]] 1
    (SourceManager.createEntry [97, 10, 98, 99, 10, 100] "a") rfl (by decide) 3 2 (by decide)
    (by decide)).mpr (.inl (by decide))

/-- The longest reference from the second byte is empty. -/
theorem longest_not_exact :
    ¬PositionExact (run [.addSourceContent "a" [97, 98]]) 1 [97, 98] 1 (2 ^ 64 - 1) := by
  rintro ⟨ref, href, -, hcontent⟩
  obtain rfl : ⟨1, 0, 1⟩ = ref := some.inj href
  exact absurd hcontent (by decide)

end EzPacker.Sources
