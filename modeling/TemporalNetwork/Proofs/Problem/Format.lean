/-
The format of problem texts.

A text is cut into lines, a line ends at a comment, and what is left of
it is cut into words at its blanks. A line has no words, or its words are
one of the five statements, with names and integers as they should be:
`Conforms` says so given the timepoints that earlier lines declared. It
does not depend on what the lines say together, and mentions no reader.

A line is read in steps, and some of what it must be is left to the
theory: that the numbers are in range, those of a negated fact too.
A line conforms exactly if it can be read and has its numbers in range.
-/
import TemporalNetwork.Proofs.Problem.Denotation
import TemporalNetwork.Proofs.Text.Words

namespace TemporalNetwork

variable {s : String} {k : Int} {names : List String} {words : List String}

-- ================================================================== format

/-- The theory takes numbers of this size. -/
def InRange (k : Int) : Prop := -maxMagnitude ≤ k ∧ k ≤ maxMagnitude

namespace Problem

/-- The lines of a text. -/
def textLines (text : String) : List (List Char) := text.toList.splitOn '\n'

/-- The words of a line, up to a comment. -/
def lineWords (line : List Char) : List String :=
  (((line.takeWhile (· ≠ '#')).splitOnP Text.isBlank).filter (!·.isEmpty)).map String.ofList

/-- The name of a variable: alphanumeric characters and underscores, one
at least. -/
def IsVariableName (cs : List Char) : Prop :=
  cs ≠ [] ∧ ∀ c ∈ cs, Text.isAlphanumeric c = true ∨ c = '_'

/-- The name of a variable, or `!` and the name of a variable. -/
def IsLiteral (s : String) : Prop :=
  IsVariableName s.toList ∨ ∃ name, s.toList = '!' :: name ∧ IsVariableName name

/-- An integer in range. -/
def IsInteger (s : String) : Prop := ∃ k ∈ Text.integer? s.toList, InRange k

/-- The timepoint can be used. -/
def Known (names : List String) (name : String) : Prop := name = originName ∨ name ∈ names

/-- The words of a line are as they should be, after lines that declare
the timepoints of the names. -/
def Conforms (names : List String) : List String → Prop
  | ["tp", name, lower, upper] =>
    ¬ Known names name ∧ ∃ lb ∈ Text.integer? lower.toList, ∃ ub ∈ Text.integer? upper.toList,
      InRange lb ∧ InRange ub ∧ lb ≤ ub
  | ["edge", a, b, weight] => Known names a ∧ Known names b ∧ IsInteger weight
  | ["cond", literal, a, b, weight] =>
    IsLiteral literal ∧ Known names a ∧ Known names b ∧ IsInteger weight
  | ["bound", literal, a, "<=", value] =>
    IsLiteral literal ∧ Known names a ∧
      ∃ k ∈ Text.integer? value.toList, InRange k ∧ InRange (k + 1)
  | ["bound", literal, a, ">=", value] =>
    IsLiteral literal ∧ Known names a ∧
      ∃ k ∈ Text.integer? value.toList, InRange k ∧ InRange (k - 1)
  | "clause" :: literals => ∀ literal ∈ literals, IsLiteral literal
  | _ => False

/-- The timepoints that a line declares, by its words. -/
def declaredBy : List String → List String
  | ["tp", name, _, _] => [name]
  | _ => []

/-- The timepoints that lines declare. -/
def declaredIn (lines : List (List Char)) : List String :=
  lines.flatMap fun line => declaredBy (lineWords line)

/-- The line at a position, from 0, has no words or has words that
conform. -/
def ConformsAt (lines : List (List Char)) (i : Nat) : Prop :=
  ∀ line, lines[i]? = some line →
    lineWords line = [] ∨ Conforms (declaredIn (lines.take i)) (lineWords line)

-- ==================================================================== words

/-- The lines that are read are those of the format. -/
theorem lines_eq_textLines (text : String) : Text.lines text.toList = textLines text :=
  Text.lines_eq_splitOn _

/-- The words of a line are those of its part before a comment. -/
theorem words_content (line : List Char) :
    (Text.words (content line)).map String.ofList = lineWords line := by
  unfold content lineWords
  rw [Text.words_trim, Text.words, Text.pieces_eq_splitOnP]

/-- Nothing is left of a line exactly when it has no words. -/
theorem content_eq_nil_iff {line : List Char} : content line = [] ↔ lineWords line = [] := by
  rw [← words_content, List.map_eq_nil_iff, content, Text.trim_eq_nil_iff, Text.words_trim]

end Problem

open Problem

-- ================================================================ literals

/-- The test for names follows the format. -/
theorem NamedLiteral.isValid_iff {l : NamedLiteral} :
    l.isValid = true ↔ IsVariableName l.name.toList := by
  unfold isValid IsVariableName
  simp

/-- A text is split into a valid literal exactly when it is one. -/
theorem NamedLiteral.isValid_split_iff : (split s).isValid = true ↔ IsLiteral s := by
  rw [isValid_iff]
  unfold split IsLiteral
  split
  next rest hs =>
    have hbang : ¬ IsVariableName ('!' :: rest) := fun hname => by
      rcases hname.2 '!' List.mem_cons_self with halphanumeric | hunderscore
      · exact absurd halphanumeric (by decide)
      · exact absurd hunderscore (by decide)
    rw [hs, or_iff_right hbang, String.toList_ofList]
    constructor
    · exact fun hrest => ⟨rest, rfl, hrest⟩
    · intro hname
      obtain ⟨name, heq, hname⟩ := hname
      cases heq
      exact hname
  next hplain =>
    refine (or_iff_left ?_).symm
    intro hname
    obtain ⟨name, hs, -⟩ := hname
    exact hplain name hs

-- ============================================================== statements

/-- The words that the statement is made of conform. -/
def Statement.Conforms (names : List String) : Statement → Prop
  | .timepoint name lower upper =>
    ¬ Known names name ∧ ∃ lb ∈ Text.integer? lower.toList, ∃ ub ∈ Text.integer? upper.toList,
      InRange lb ∧ InRange ub ∧ lb ≤ ub
  | .edge source target weight => Known names source ∧ Known names target ∧ IsInteger weight
  | .conditional guard source target weight =>
    IsLiteral guard ∧ Known names source ∧ Known names target ∧ IsInteger weight
  | .bound literal tp comparison value =>
    IsLiteral literal ∧ Known names tp ∧ ∃ k ∈ Text.integer? value.toList, InRange k ∧
      (comparison = "<=" ∧ InRange (k + 1) ∨ comparison = ">=" ∧ InRange (k - 1))
  | .clause literals => ∀ literal ∈ literals, IsLiteral literal

/-- A statement conforms exactly when its words do. -/
theorem Statement.conforms_iff {statement : Statement} (h : ofWords? words = some statement) :
    statement.Conforms names ↔ Problem.Conforms names words := by
  unfold ofWords? at h
  split at h
  next =>
    cases h
    rfl
  next =>
    cases h
    rfl
  next =>
    cases h
    rfl
  next literal tp comparison value =>
    cases h
    by_cases hle : comparison = "<="
    · subst hle
      simp [Conforms, Problem.Conforms]
    · by_cases hge : comparison = ">="
      · subst hge
        simp [Conforms, Problem.Conforms]
      · simp [Conforms, Problem.Conforms, hle, hge]
  next =>
    cases h
    rfl
  next => cases h

/-- Only statements conform. -/
theorem Statement.exists_of_conforms (h : Problem.Conforms names words) :
    ∃ statement, ofWords? words = some statement := by
  unfold Problem.Conforms at h
  split at h
  next => exact ⟨_, rfl⟩
  next => exact ⟨_, rfl⟩
  next => exact ⟨_, rfl⟩
  next => exact ⟨_, rfl⟩
  next => exact ⟨_, rfl⟩
  next => exact ⟨_, rfl⟩
  next => exact h.elim

/-- The timepoint that the statement declares. -/
def Statement.declares : Statement → List String
  | .timepoint name _ _ => [name]
  | _ => []

/-- A statement declares what its words declare. -/
theorem Statement.declares_eq {statement : Statement} (h : ofWords? words = some statement) :
    statement.declares = declaredBy words := by
  unfold ofWords? at h
  split at h
  next =>
    cases h
    rfl
  next =>
    cases h
    rfl
  next =>
    cases h
    rfl
  next =>
    cases h
    rfl
  next literals =>
    cases h
    unfold declaredBy
    split
    next heq => exact absurd (List.cons.inj heq).1 (by decide)
    next => rfl
  next => cases h

-- ============================================================== directives

namespace Directive

/-- The numbers of the directive are in range, and a domain is not empty. -/
def InRange : Directive → Prop
  | .timepoint _ domain =>
    TemporalNetwork.InRange domain.lower ∧ TemporalNetwork.InRange domain.upper ∧
      domain.lower ≤ domain.upper
  | .edge _ _ weight => TemporalNetwork.InRange weight
  | .conditional _ _ _ weight => TemporalNetwork.InRange weight
  | .bound _ fact =>
    TemporalNetwork.InRange fact.value ∧ TemporalNetwork.InRange fact.negation.value
  | .clause _ => True

/-- The timepoints that the directive is about. -/
def timepoints : Directive → List Timepoint
  | .timepoint _ _ => []
  | .edge source target _ => [source, target]
  | .conditional _ source target _ => [source, target]
  | .bound _ fact => [fact.timepoint]
  | .clause _ => []

/-- The timepoint that the directive declares. -/
def declares : Directive → List String
  | .timepoint name _ => [name]
  | _ => []

-- ================================================================= reading

variable {declared : String → Option Timepoint} {statement : Statement} {d : Directive}
  {tp : Timepoint}

/-- An integer in range has 32 bits. -/
theorem readInteger_of_inRange (hs : Text.integer? s.toList = some k)
    (hk : TemporalNetwork.InRange k) : readInteger s = .ok k := by
  obtain ⟨hlower, hupper⟩ := hk
  unfold maxMagnitude at hlower hupper
  have hread : Text.IntegerRange.int32.read s.toList = .ok k := by
    apply Text.IntegerRange.read_of_integer? hs
    · decide
    · decide
    · show -2147483648 ≤ k
      omega
    · show k ≤ 2147483647
      omega
  rw [readInteger, hread]
  rfl

/-- Exactly the literals of the format can be read. -/
theorem exists_readLiteral_iff : (∃ l, readLiteral s = .ok l) ↔ IsLiteral s := by
  rw [← NamedLiteral.isValid_split_iff]
  unfold readLiteral NamedLiteral.read?
  by_cases hvalid : (NamedLiteral.split s).isValid = true
  · rw [if_pos hvalid]
    exact ⟨fun _ => hvalid, fun _ => ⟨_, rfl⟩⟩
  · rw [if_neg hvalid]
    constructor
    · intro hread
      obtain ⟨l, hread⟩ := hread
      cases hread
    · exact fun hvalid' => absurd hvalid' hvalid

/-- Texts can be read as literals exactly when each of them can. -/
theorem exists_readLiterals_iff {ss : List String} :
    (∃ ls, readLiterals ss = .ok ls) ↔ ∀ s ∈ ss, IsLiteral s := by
  induction ss with
  | nil => exact ⟨fun _ s hs => absurd hs List.not_mem_nil, fun _ => ⟨[], rfl⟩⟩
  | cons s ss ih =>
      rw [List.forall_mem_cons, ← ih, ← exists_readLiteral_iff]
      simp only [readLiterals, bind_eq_ok]
      constructor
      · intro hread
        obtain ⟨ls, l, hl, rest, hrest, -⟩ := hread
        exact ⟨⟨l, hl⟩, rest, hrest⟩
      · intro hread
        obtain ⟨⟨l, hl⟩, rest, hrest⟩ := hread
        exact ⟨l :: rest, l, hl, rest, hrest, rfl⟩

/-- A statement conforms if and only if it is read as a directive with
its numbers in range. -/
theorem exists_reads_iff_conforms
    (hdeclared : ∀ name, (∃ tp, declared name = some tp) ↔ Known names name) :
    (∃ d, Reads declared statement d ∧ d.InRange) ↔ statement.Conforms names := by
  have hknown : ∀ {name tp}, declared name = some tp → Known names name :=
    fun hfound => (hdeclared _).mp ⟨_, hfound⟩
  constructor
  · -- what was read is in the text, and names that were found are known
    intro hread
    obtain ⟨d, hreads, hrange⟩ := hread
    cases hreads with
    | @timepoint name lower upper lb ub hnew hlb hub =>
        refine ⟨fun hold => ?_, lb, readInteger_eq_ok hlb, ub, readInteger_eq_ok hub, hrange⟩
        obtain ⟨tp, htp⟩ := (hdeclared name).mpr hold
        rw [hnew] at htp
        cases htp
    | edge ha hb hw => exact ⟨hknown ha, hknown hb, _, readInteger_eq_ok hw, hrange⟩
    | conditional ha hb hg hw =>
        exact ⟨exists_readLiteral_iff.mp ⟨_, hg⟩, hknown ha, hknown hb, _, readInteger_eq_ok hw,
          hrange⟩
    | bound ha hk hf hl =>
        refine ⟨exists_readLiteral_iff.mp ⟨_, hl⟩, hknown ha, _, readInteger_eq_ok hk, ?_⟩
        rcases readFact_eq_ok hf with ⟨hle, rfl⟩ | ⟨hge, rfl⟩
        · exact ⟨hrange.1, .inl ⟨hle, hrange.2⟩⟩
        · exact ⟨hrange.1, .inr ⟨hge, hrange.2⟩⟩
    | clause hls => exact exists_readLiterals_iff.mp ⟨_, hls⟩
  · -- a number of the text that is in range can be read
    intro hconforms
    cases statement with
    | timepoint name lower upper =>
        obtain ⟨hnew, lb, hlb, ub, hub, hrange⟩ := hconforms
        have hnone : declared name = none := by
          cases htp : declared name with
          | none => rfl
          | some tp => exact absurd (hknown htp) hnew
        exact ⟨_, .timepoint hnone (readInteger_of_inRange hlb hrange.1)
          (readInteger_of_inRange hub hrange.2.1), hrange⟩
    | edge source target weight =>
        obtain ⟨hsource, htarget, w, hw, hrange⟩ := hconforms
        obtain ⟨a, ha⟩ := (hdeclared source).mpr hsource
        obtain ⟨b, hb⟩ := (hdeclared target).mpr htarget
        exact ⟨_, .edge ha hb (readInteger_of_inRange hw hrange), hrange⟩
    | conditional guard source target weight =>
        obtain ⟨hguard, hsource, htarget, w, hw, hrange⟩ := hconforms
        obtain ⟨g, hg⟩ := exists_readLiteral_iff.mpr hguard
        obtain ⟨a, ha⟩ := (hdeclared source).mpr hsource
        obtain ⟨b, hb⟩ := (hdeclared target).mpr htarget
        exact ⟨_, .conditional ha hb hg (readInteger_of_inRange hw hrange), hrange⟩
    | bound literal name comparison value =>
        obtain ⟨hliteral, hname, k, hk, hrange, hnegated⟩ := hconforms
        obtain ⟨l, hl⟩ := exists_readLiteral_iff.mpr hliteral
        obtain ⟨a, ha⟩ := (hdeclared name).mpr hname
        have hvalue := readInteger_of_inRange hk hrange
        rcases hnegated with ⟨rfl, hnegated⟩ | ⟨rfl, hnegated⟩
        · exact ⟨.bound l (.leq a k), .bound ha hvalue rfl hl, hrange, hnegated⟩
        · exact ⟨.bound l (.geq a k), .bound ha hvalue rfl hl, hrange, hnegated⟩
    | clause literals =>
        obtain ⟨ls, hls⟩ := exists_readLiterals_iff.mpr hconforms
        exact ⟨_, .clause hls, trivial⟩

/-- Words conform if and only if they are read as a directive with its
numbers in range. -/
theorem exists_ofWords_iff_conforms
    (hdeclared : ∀ name, (∃ tp, declared name = some tp) ↔ Known names name) :
    (∃ d, ofWords declared words = .ok d ∧ d.InRange) ↔ Problem.Conforms names words := by
  constructor
  · intro hread
    obtain ⟨d, hread, hrange⟩ := hread
    obtain ⟨statement, hwords, hreads⟩ := ofWords_eq_ok.mp hread
    rw [← Statement.conforms_iff hwords, ← exists_reads_iff_conforms hdeclared]
    exact ⟨d, hreads, hrange⟩
  · intro hconforms
    obtain ⟨statement, hwords⟩ := Statement.exists_of_conforms hconforms
    rw [← Statement.conforms_iff hwords, ← exists_reads_iff_conforms hdeclared] at hconforms
    obtain ⟨d, hreads, hrange⟩ := hconforms
    exact ⟨d, ofWords_eq_ok.mpr ⟨statement, hwords, hreads⟩, hrange⟩

/-- A directive declares what its words declare. -/
theorem declares_of_ofWords (h : ofWords declared words = .ok d) :
    d.declares = declaredBy words := by
  obtain ⟨statement, hwords, hreads⟩ := ofWords_eq_ok.mp h
  rw [← Statement.declares_eq hwords]
  cases hreads with
  | timepoint => rfl
  | edge => rfl
  | conditional => rfl
  | bound => rfl
  | clause => rfl

/-- A directive is about timepoints that were looked up. -/
theorem exists_of_mem_timepoints (h : ofWords declared words = .ok d) (htp : tp ∈ d.timepoints) :
    ∃ name, declared name = some tp := by
  obtain ⟨statement, -, hreads⟩ := ofWords_eq_ok.mp h
  cases hreads with
  | timepoint => cases htp
  | edge ha hb hw =>
      rcases List.mem_pair.mp htp with rfl | rfl
      · exact ⟨_, ha⟩
      · exact ⟨_, hb⟩
  | conditional ha hb hg hw =>
      rcases List.mem_pair.mp htp with rfl | rfl
      · exact ⟨_, ha⟩
      · exact ⟨_, hb⟩
  | bound ha hk hf hl =>
      obtain rfl := List.mem_singleton.mp htp
      rcases readFact_eq_ok hf with ⟨-, rfl⟩ | ⟨-, rfl⟩
      · exact ⟨_, ha⟩
      · exact ⟨_, ha⟩
  | clause => cases htp

end Directive

end TemporalNetwork
