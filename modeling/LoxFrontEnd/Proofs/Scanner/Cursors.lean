import LoxFrontEnd.Proofs.Scanner.Basic

/-!
The two cursors of the scanner stay in step. The bytes behind the one and the characters ahead of the
other make up the text, so that every cut is made between characters. All that a step can do is told
once, and what it keeps follows.
-/

namespace LoxFrontEnd

variable {source : String}

/-- The bytes of the first part of a text end between characters. -/
theorem isValid_append (front behind : String) :
    (String.Pos.Raw.mk front.utf8ByteSize).IsValid (front ++ behind) :=
  String.Pos.Raw.isValid_iff_exists_append.mpr ⟨front, behind, rfl, rfl⟩

theorem slice_append (front middle behind : String) :
    slice (front ++ middle ++ behind) front.utf8ByteSize (front ++ middle).utf8ByteSize = some middle := by
  have start := isValid_append front (middle ++ behind)
  rw [← String.append_assoc] at start
  have ordered : front.utf8ByteSize ≤ (front ++ middle).utf8ByteSize := by
    rw [String.utf8ByteSize_append]
    exact Nat.le_add_right _ _
  have valid := And.intro start (And.intro (isValid_append (front ++ middle) behind) ordered)
  rw [slice, dif_pos valid]
  refine congrArg some (String.toByteArray_inj.mp ?_)
  rw [String.toByteArray_extract]
  show (front ++ middle ++ behind).toByteArray.extract front.utf8ByteSize (front ++ middle).utf8ByteSize = _
  rw [String.toByteArray_append, ← String.size_toByteArray, ← String.size_toByteArray,
    ByteArray.extract_append_size_left, String.toByteArray_append]
  exact ByteArray.extract_append_eq_right rfl ByteArray.size_append

theorem utf8ByteSize_concat (front : String) (text : List Char) (c : Char) :
    (front ++ String.ofList (text ++ [c])).utf8ByteSize =
      (front ++ String.ofList text).utf8ByteSize + c.utf8Size := by
  rw [String.ofList_append, ← String.append_assoc, String.utf8ByteSize_append, ← String.singleton_eq_ofList,
    String.utf8ByteSize_singleton]

/-- What was behind when a lexeme began, and what has been written by now. -/
structure Frame where
  front : String
  position : Position
  tokens : List Token
  errors : List ScanError
  log : List LogRecord

namespace Frame

variable {phase : Phase} {text ahead : List Char} {c : Char}

def empty : Frame := ⟨"", .start, [], [], []⟩

/-- The scanner that has taken this text of the lexeme. -/
def scanner (f : Frame) (phase : Phase) (text ahead : List Char) : Scanner :=
  ⟨phase, ahead, (f.front ++ String.ofList text).utf8ByteSize, f.position.after text,
    f.front.utf8ByteSize, f.position, f.tokens, f.errors, f.log⟩

/-- The frame of the next lexeme. -/
def behind (f : Frame) (text : List Char) : Frame :=
  { f with front := f.front ++ String.ofList text, position := f.position.after text }

theorem advance_cons (f : Frame) :
    (f.scanner phase text (c :: ahead)).advance = f.scanner phase (text ++ [c]) ahead := by
  rw [scanner, scanner, utf8ByteSize_concat, Position.after_append]
  rfl

theorem begin_cons (f : Frame) :
    (f.scanner .between text (c :: ahead)).begin = (f.behind text).scanner (.begun c) [c] ahead := by
  have size := utf8ByteSize_concat (f.front ++ String.ofList text) [] c
  rw [String.ofList_nil, String.append_empty, List.nil_append] at size
  rw [scanner, scanner, behind, size]
  rfl

end Frame

/-- The phases within a lexeme. -/
def Phase.inside : Phase → Bool
  | .between | .done => false
  | _ => true

def Phase.wholeEnd? : Phase → Option Nat
  | .decimals wholeEnd | .numeral wholeEnd => some wholeEnd
  | _ => none

/-- What the cursors mean to the rules. The scanner has taken `front` before the lexeme began, and
`text` of the lexeme. -/
structure Aligned (source : String) (s : Scanner) (front text : List Char) : Prop where
  whole : source.toList = front ++ text ++ s.ahead
  lexemeStart : s.lexemeStart = (String.ofList front).utf8ByteSize
  current : s.current = (String.ofList (front ++ text)).utf8ByteSize
  remaining : slice source s.current source.utf8ByteSize = some (String.ofList s.ahead)
  ordered : s.lexemeStart ≤ s.current ∧ s.current ≤ source.utf8ByteSize
  /-- The offsets stand between characters. -/
  valid : (String.Pos.Raw.mk s.lexemeStart).IsValid source ∧ (String.Pos.Raw.mk s.current).IsValid source
  wholeEnd : ∀ stop ∈ s.phase.wholeEnd?, s.lexemeStart ≤ stop ∧ stop ≤ s.current ∧
    (String.Pos.Raw.mk stop).IsValid source
  isAtEnd : s.isAtEnd source = true ↔ s.ahead = []
  peekTwo : s.peekTwo source = some s.ahead[1]?
  lexeme : s.lexeme source = some (String.ofList text)

/-- The cursors stand behind the same characters, and the offset of a point between characters of the
lexeme. -/
structure InStep (source : String) (f : Frame) (text : List Char) (s : Scanner) : Prop where
  scanner : s = f.scanner s.phase text s.ahead
  whole : source = f.front ++ String.ofList text ++ String.ofList s.ahead
  wholeEnd : ∀ stop ∈ s.phase.wholeEnd?, ∃ digits others, text = digits ++ others ∧
    stop = (f.front ++ String.ofList digits).utf8ByteSize

namespace InStep

variable {f : Frame} {text : List Char} {s : Scanner}

theorem ofSource (source : String) : InStep source .empty [] (Scanner.ofSource source) where
  scanner := rfl
  whole := by
    rw [Frame.empty, String.ofList_nil, String.append_empty, String.empty_append, Scanner.ofSource,
      String.ofList_toList]
  wholeEnd := nofun

variable (inStep : InStep source f text s)
include inStep

theorem current_eq : s.current = (f.front ++ String.ofList text).utf8ByteSize := by
  rw [inStep.scanner]
  rfl

theorem lexemeStart_eq : s.lexemeStart = f.front.utf8ByteSize := by
  rw [inStep.scanner]
  rfl

theorem lexeme_eq : s.lexeme source = some (String.ofList text) := by
  rw [Scanner.lexeme, inStep.lexemeStart_eq, inStep.current_eq, inStep.whole]
  exact slice_append ..

theorem remaining_eq : slice source s.current source.utf8ByteSize = some (String.ofList s.ahead) := by
  have cut := slice_append (f.front ++ String.ofList text) (String.ofList s.ahead) ""
  rw [String.append_empty, ← inStep.whole, ← inStep.current_eq] at cut
  exact cut

theorem peekTwo_eq : s.peekTwo source = some s.ahead[1]? := by
  rw [Scanner.peekTwo, inStep.remaining_eq]
  show some (String.ofList s.ahead).toList[1]? = _
  rw [String.toList_ofList]

theorem isAtEnd_iff : s.isAtEnd source = true ↔ s.ahead = [] := by
  have size := congrArg String.utf8ByteSize inStep.whole
  rw [String.utf8ByteSize_append, ← inStep.current_eq] at size
  have none : (String.ofList s.ahead).utf8ByteSize = 0 ↔ s.ahead = [] := by
    rw [String.utf8ByteSize_eq_zero_iff, String.ofList_eq_empty_iff]
  rw [← none, Scanner.isAtEnd, decide_eq_true_iff]
  omega

theorem aligned : Aligned source s f.front.toList text := by
  have size : (f.front ++ String.ofList text).utf8ByteSize + (String.ofList s.ahead).utf8ByteSize =
      source.utf8ByteSize := by
    rw [← String.utf8ByteSize_append, ← inStep.whole]
  have between (front behind : String) (split : source = front ++ behind) :
      (String.Pos.Raw.mk front.utf8ByteSize).IsValid source := by
    rw [split]
    exact isValid_append front behind
  refine ⟨?_, ?_, ?_, inStep.remaining_eq, ?_, ⟨?_, ?_⟩, fun stop isEnd => ?_, inStep.isAtEnd_iff,
    inStep.peekTwo_eq, inStep.lexeme_eq⟩
  · rw [inStep.whole, String.toList_append, String.toList_append, String.toList_ofList,
      String.toList_ofList]
  · rw [inStep.lexemeStart_eq, String.ofList_toList]
  · rw [inStep.current_eq, String.ofList_append, String.ofList_toList]
  · rw [inStep.lexemeStart_eq, inStep.current_eq, ← size, String.utf8ByteSize_append]
    omega
  · rw [inStep.lexemeStart_eq]
    exact between f.front _ (inStep.whole.trans (String.append_assoc ..))
  · rw [inStep.current_eq]
    exact between _ _ inStep.whole
  · obtain ⟨digits, others, rfl, rfl⟩ := inStep.wholeEnd stop isEnd
    have split :
        source = f.front ++ String.ofList digits ++ (String.ofList others ++ String.ofList s.ahead) := by
      rw [inStep.whole, String.ofList_append, ← String.append_assoc, String.append_assoc]
    have start := inStep.lexemeStart_eq
    have current := inStep.current_eq
    rw [String.ofList_append, ← String.append_assoc, String.utf8ByteSize_append] at current
    rw [start, current, String.utf8ByteSize_append]
    refine ⟨Nat.le_add_right _ _, Nat.le_add_right _ _, ?_⟩
    rw [← String.utf8ByteSize_append]
    exact between _ _ split

/-- The digits in front of a point are cut out of the lexeme. -/
theorem digits_eq {stop : Nat} (isEnd : stop ∈ s.phase.wholeEnd?) :
    ∃ digits others, text = digits ++ others ∧
      stop = (f.front ++ String.ofList digits).utf8ByteSize ∧
      slice source s.lexemeStart stop = some (String.ofList digits) := by
  obtain ⟨digits, others, rfl, rfl⟩ := inStep.wholeEnd stop isEnd
  refine ⟨digits, others, rfl, rfl, ?_⟩
  rw [inStep.lexemeStart_eq, inStep.whole, String.ofList_append, ← String.append_assoc, String.append_assoc]
  exact slice_append ..

end InStep

/-- What one step can do: take a character or not and go on within the lexeme, begin the next lexeme,
write down the last one, or end. -/
inductive Turn (s : Scanner) : Scanner → Prop
  | take {c : Char} {ahead : List Char} {phase : Phase} : s.phase.inside = true → s.ahead = c :: ahead →
      (∀ stop ∈ phase.wholeEnd?, stop = s.current ∨ stop ∈ s.phase.wholeEnd?) →
      Turn s (s.advance.goto phase)
  | go {phase : Phase} : s.phase.inside = true →
      (∀ stop ∈ phase.wholeEnd?, stop = s.current ∨ stop ∈ s.phase.wholeEnd?) → Turn s (s.goto phase)
  | begin {c : Char} {ahead : List Char} : s.phase = .between → s.ahead = c :: ahead → Turn s s.begin
  | push {token : Token} : s.phase.inside = true → Turn s (s.push token)
  | report {e : ScanError} : s.phase.inside = true → Turn s (s.report e)
  | close : s.phase = .between → s.ahead = [] → Turn s s.close
  | stay : s.phase = .done → Turn s s

namespace Scanner

variable {s s' : Scanner} {f : Frame} {text : List Char}

theorem sees_cons {p : Char → Bool} (sees : s.sees p = true) :
    ∃ c ahead, s.ahead = c :: ahead ∧ p c = true := by
  rw [Scanner.sees] at sees
  cases ahead : s.ahead with
  | nil =>
    rw [ahead] at sees
    cases sees
  | cons c ahead' =>
    rw [ahead] at sees
    exact ⟨c, ahead', rfl, sees⟩

theorem advance_of_cons {c : Char} {ahead : List Char} (next : s.ahead = c :: ahead) : s.advance =
    { s with ahead := ahead, current := s.current + c.utf8Size, position := s.position.next c } := by
  rw [advance, next]

theorem begin_of_cons {c : Char} {ahead : List Char} (next : s.ahead = c :: ahead) : s.begin =
    { s with phase := .begun c, ahead := ahead, current := s.current + c.utf8Size,
             position := s.position.next c, lexemeStart := s.current, lexemePosition := s.position } := by
  rw [begin, next]
  simp only [advance]
  rfl

theorem goto_phase (s : Scanner) : s.advance.goto s.phase = s.advance := by
  rw [advance]
  split <;> rfl

section Turns

variable {phase : Phase} (within : s.phase.inside = true)
include within

theorem turn_advance {p : Char → Bool} (sees : s.sees p = true) : Turn s s.advance := by
  obtain ⟨c, ahead, next, -⟩ := sees_cons sees
  have turn : Turn s (s.advance.goto s.phase) := .take within next fun _ isEnd => Or.inr isEnd
  rwa [goto_phase] at turn

theorem turn_take {p : Char → Bool} (sees : s.sees p = true) (other : phase.wholeEnd? = none) :
    Turn s (s.advance.goto phase) := by
  obtain ⟨c, ahead, next, -⟩ := sees_cons sees
  exact .take within next fun _ isEnd => absurd (other.symm.trans isEnd) nofun

theorem turn_go (other : phase.wholeEnd? = none) : Turn s (s.goto phase) :=
  .go within fun _ isEnd => absurd (other.symm.trans isEnd) nofun

theorem turn_matchOne {expected : Char} {matched other : Phase} (plain : matched.wholeEnd? = none)
    (plain' : other.wholeEnd? = none) : Turn s (s.matchOne expected matched other) := by
  rw [matchOne]
  by_cases sees : s.sees (· = expected) = true
  · rw [if_pos sees]
    exact turn_take within sees plain
  · rw [if_neg sees]
    exact turn_go within plain'

theorem turn_classify (c : Char) : Turn s (s.classify c) := by
  rw [classify]
  split
  · split
    · exact turn_matchOne within rfl rfl
    · split
      · exact turn_matchOne within rfl rfl
      · exact turn_go within rfl
  · split
    · exact turn_go within rfl
    split
    · exact turn_go within rfl
    split
    · exact turn_go within rfl
    split
    · exact turn_go within rfl
    · exact turn_go within rfl

omit within in
theorem point_eq (inStep : InStep source f text s) : s.point source =
    some (if s.sees (· = '.') = true ∧ s.ahead[1]?.any Char.isDigit = true
      then s.advance.goto (.decimals s.current) else s.goto (.numeral s.current)) := by
  rw [point]
  by_cases sees : s.sees (· = '.') = true
  · rw [if_pos sees, inStep.peekTwo_eq]
    simp only [sees, true_and]
    rfl
  · have other := fun ahead : s.sees (· = '.') = true ∧ s.ahead[1]?.any Char.isDigit = true => sees ahead.1
    rw [if_neg sees, if_neg other]

theorem point_turn (inStep : InStep source f text s) : ∃ s', s.point source = some s' ∧ Turn s s' := by
  refine ⟨_, point_eq inStep, ?_⟩
  split
  next ahead =>
    obtain ⟨c, ahead', next, -⟩ := sees_cons ahead.1
    exact .take within next fun _ isEnd => Or.inl (Option.some.inj isEnd).symm
  next => exact .go within fun _ isEnd => Or.inl (Option.some.inj isEnd).symm

theorem number_turn {wholeEnd : Nat} (inStep : InStep source f text s)
    (isEnd : wholeEnd ∈ s.phase.wholeEnd?) :
    ∃ s', s.number source wholeEnd = some s' ∧ Turn s s' := by
  obtain ⟨digits, others, -, -, cut⟩ := inStep.digits_eq isEnd
  rw [number, inStep.lexeme_eq, cut]
  refine ⟨_, rfl, turn_go within ?_⟩
  split <;> rfl

end Turns

/-- No cut fails, since the cursors are in step. -/
theorem step_turn (inStep : InStep source f text s) : ∃ s', step source s = some s' ∧ Turn s s' := by
  have lexeme := inStep.lexeme_eq
  have inside {phase : Phase} (same : s.phase = phase) (within : phase.inside = true) :
      s.phase.inside = true := by
    rw [same]
    exact within
  cases phase : s.phase with
  | between =>
    by_cases atEnd : s.isAtEnd source = true
    · refine ⟨s.close, ?_, .close phase (inStep.isAtEnd_iff.mp atEnd)⟩
      simp only [step, phase, if_pos atEnd]
    · obtain ⟨c, ahead, next⟩ := List.exists_cons_of_ne_nil fun none => atEnd (inStep.isAtEnd_iff.mpr none)
      refine ⟨s.begin, ?_, .begin phase next⟩
      simp only [step, phase, if_neg atEnd]
  | begun c =>
    have within := inside phase rfl
    refine ⟨_, ?_, turn_classify within c⟩
    simp only [step, phase]
  | comment =>
    have within := inside phase rfl
    by_cases sees : s.sees (· ≠ '\n') = true
    · refine ⟨_, ?_, turn_advance within sees⟩
      simp only [step, phase, if_pos sees]
    · refine ⟨s.goto .between, ?_, turn_go within rfl⟩
      simp only [step, phase, if_neg sees]
  | string =>
    have within := inside phase rfl
    by_cases sees : s.sees (fun c => c ≠ '"' ∧ c ≠ '\n') = true
    · refine ⟨_, ?_, turn_advance within sees⟩
      simp only [step, phase, if_pos sees]
    by_cases closes : s.sees (· = '"') = true
    · refine ⟨s.advance.goto (.token .string), ?_, turn_take within closes rfl⟩
      simp only [step, phase, if_neg sees, if_pos closes]
    · refine ⟨s.goto (.fault .unterminatedString (String.ofList text)), ?_, turn_go within rfl⟩
      simp only [step, phase, if_neg sees, if_neg closes, lexeme]
      rfl
  | whole =>
    have within := inside phase rfl
    by_cases sees : s.sees Char.isDigit = true
    · refine ⟨_, ?_, turn_advance within sees⟩
      simp only [step, phase, if_pos sees]
    · simp only [step, phase, if_neg sees]
      exact point_turn within inStep
  | decimals wholeEnd =>
    have within := inside phase rfl
    by_cases sees : s.sees Char.isDigit = true
    · refine ⟨_, ?_, turn_advance within sees⟩
      simp only [step, phase, if_pos sees]
    · refine ⟨s.goto (.numeral wholeEnd), ?_, .go within fun stop isEnd => Or.inr ?_⟩
      · simp only [step, phase, if_neg sees]
      · rw [phase]
        exact isEnd
  | numeral wholeEnd =>
    have within := inside phase rfl
    simp only [step, phase]
    refine number_turn within inStep ?_
    rw [phase]
    rfl
  | word =>
    have within := inside phase rfl
    by_cases sees : s.sees Piece.isWordPart = true
    · refine ⟨_, ?_, turn_advance within sees⟩
      simp only [step, phase, if_pos sees]
    · refine ⟨s.goto (.token (.ofWord (String.ofList text).toList)), ?_, turn_go within rfl⟩
      simp only [step, phase, if_neg sees, lexeme]
      rfl
  | token kind =>
    have within := inside phase rfl
    refine ⟨s.push ⟨kind, String.ofList text, s.lexemePosition⟩, ?_, .push within⟩
    simp only [step, phase, lexeme]
    rfl
  | fault cause told =>
    have within := inside phase rfl
    refine ⟨s.report ⟨cause, told, s.lexemePosition⟩, ?_, .report within⟩
    simp only [step, phase]
  | done => exact ⟨s, by simp only [step, phase], .stay phase⟩

end Scanner

namespace InStep

variable {f : Frame} {text : List Char} {s : Scanner}

theorem goto {phase : Phase} (inStep : InStep source f text s)
    (ends : ∀ stop ∈ phase.wholeEnd?, ∃ digits others, text = digits ++ others ∧
      stop = (f.front ++ String.ofList digits).utf8ByteSize) : InStep source f text (s.goto phase) where
  scanner := congrArg (fun s => s.goto phase) inStep.scanner
  whole := inStep.whole
  wholeEnd := ends

theorem advance {c : Char} {ahead : List Char} (inStep : InStep source f text s)
    (next : s.ahead = c :: ahead) :
    InStep source f (text ++ [c]) s.advance := by
  have advanced : s.advance = f.scanner s.phase (text ++ [c]) ahead := by
    rw [inStep.scanner, next]
    exact f.advance_cons
  rw [advanced]
  refine ⟨rfl, ?_, fun stop isEnd => ?_⟩
  · have whole := inStep.whole
    rw [next, String.ofList_cons, String.singleton_eq_ofList, ← String.append_assoc] at whole
    rw [String.ofList_append, ← String.append_assoc]
    exact whole
  · obtain ⟨digits, others, rfl, rfl⟩ := inStep.wholeEnd stop isEnd
    exact ⟨digits, others ++ [c], List.append_assoc .., rfl⟩

theorem begin {c : Char} {ahead : List Char} (inStep : InStep source f text s) (phase : s.phase = .between)
    (next : s.ahead = c :: ahead) : InStep source (f.behind text) [c] s.begin := by
  have begun : s.begin = (f.behind text).scanner (.begun c) [c] ahead := by
    rw [inStep.scanner, phase, next]
    exact f.begin_cons
  rw [begun]
  refine ⟨rfl, ?_, nofun⟩
  have whole := inStep.whole
  rw [next, String.ofList_cons, String.singleton_eq_ofList, ← String.append_assoc] at whole
  exact whole

end InStep

namespace Turn

variable {f : Frame} {text : List Char} {s s' : Scanner}

/-- The cursors keep in step, and what is taken within a lexeme belongs to it. -/
theorem inStep (turn : Turn s s') (inStep : InStep source f text s) :
    ∃ f' text', InStep source f' text' s' ∧
    (s.phase.inside = true → f'.front = f.front ∧ ∃ taken, text' = text ++ taken ∧
      s.ahead = taken ++ s'.ahead) ∧
    (s.phase = .between → s'.phase.inside = true →
      f'.front = f.front ++ String.ofList text ∧ s.ahead = text' ++ s'.ahead) := by
  have outside {P : Prop} (phase : s.phase.inside = false) (within : s.phase.inside = true) : P :=
    absurd (phase.symm.trans within) Bool.false_ne_true
  cases turn with
  | @take c ahead phase within next ends =>
    refine ⟨f, text ++ [c], (inStep.advance next).goto fun stop isEnd => ?_,
      fun _ => ⟨rfl, [c], rfl, ?_⟩, fun between => ?_⟩
    · rcases ends stop isEnd with rfl | known
      · exact ⟨text, [c], rfl, inStep.current_eq⟩
      · obtain ⟨digits, others, rfl, rfl⟩ := inStep.wholeEnd stop known
        exact ⟨digits, others ++ [c], List.append_assoc .., rfl⟩
    · show s.ahead = [c] ++ s.advance.ahead
      rw [Scanner.advance_of_cons next, next]
      rfl
    · rw [between] at within
      cases within
  | @go phase within ends =>
    refine ⟨f, text, inStep.goto fun stop isEnd => ?_, fun _ => ⟨rfl, [], (List.append_nil _).symm, rfl⟩,
      fun between => ?_⟩
    · rcases ends stop isEnd with rfl | known
      · exact ⟨text, [], (List.append_nil _).symm, inStep.current_eq⟩
      · exact inStep.wholeEnd stop known
    · rw [between] at within
      cases within
  | @begin c ahead phase next =>
    refine ⟨f.behind text, [c], inStep.begin phase next, outside (by rw [phase]; rfl), fun _ _ => ⟨rfl, ?_⟩⟩
    rw [Scanner.begin_of_cons next, next]
    rfl
  | @push token within =>
    refine ⟨{ f with tokens := f.tokens ++ [token] }, text, ⟨?_, inStep.whole, nofun⟩,
      fun _ => ⟨rfl, [], (List.append_nil _).symm, rfl⟩, fun _ => nofun⟩
    exact congrArg (fun s => s.push token) inStep.scanner
  | @report e within =>
    let record : LogRecord := ⟨.debug, .scanner, messageAt e.message e.position⟩
    refine ⟨{ f with errors := f.errors ++ [e], log := f.log ++ [record] }, text, ⟨?_, inStep.whole, nofun⟩,
      fun _ => ⟨rfl, [], (List.append_nil _).symm, rfl⟩, fun _ => nofun⟩
    exact congrArg (fun s => s.report e) inStep.scanner
  | close phase none =>
    refine ⟨{ f with tokens := s.close.tokens, log := s.close.log }, text, ⟨?_, inStep.whole, nofun⟩,
      outside (by rw [phase]; rfl), fun _ => nofun⟩
    obtain ⟨phase', ahead', rfl⟩ : ∃ phase ahead, s = f.scanner phase text ahead := ⟨_, _, inStep.scanner⟩
    rfl
  | stay phase =>
    exact ⟨f, text, inStep, outside (by rw [phase]; rfl),
      fun between => by rw [between] at phase; cases phase⟩

theorem current_le (turn : Turn s s') : s.current ≤ s'.current := by
  cases turn with
  | @take c ahead phase within next ends =>
    show s.current ≤ s.advance.current
    rw [Scanner.advance_of_cons next]
    exact Nat.le_add_right _ _
  | @begin c ahead phase next =>
    rw [Scanner.begin_of_cons next]
    exact Nat.le_add_right _ _
  | go | push | report | close | stay => exact Nat.le_refl _

/-- In front of a lexeme a step takes a character or ends. -/
theorem of_between (turn : Turn s s') (phase : s.phase = .between) :
    s'.phase = .done ∨ s'.phase.inside = true ∧ s.current < s'.current := by
  have outside {P : Prop} (within : s.phase.inside = true) : P := by
    rw [phase] at within
    cases within
  cases turn with
  | take within => exact outside within
  | go within => exact outside within
  | push within => exact outside within
  | report within => exact outside within
  | @begin c ahead _ next =>
    rw [Scanner.begin_of_cons next]
    exact Or.inr ⟨rfl, Nat.lt_add_of_pos_right c.utf8Size_pos⟩
  | close => exact Or.inl rfl
  | stay isDone => exact Or.inl isDone

end Turn

namespace Scanner

variable {s s' : Scanner}

/-- The scanner has been within one lexeme since it stood in front of it, with this text of the lexeme
ahead. -/
def Began (source : String) (n : Nat) (s : Scanner) (text : List Char) : Prop :=
  ∃ m s₀, m < n ∧ run source m = some s₀ ∧ s₀.phase = .between ∧ s₀.current = s.lexemeStart ∧
    s₀.ahead = text ++ s.ahead ∧ ∀ k s', m < k → k ≤ n → run source k = some s' → s'.phase.inside = true

theorem step_of_done (isDone : s.phase = .done) : step source s = some s := by
  simp only [step, isDone]

theorem run_succ {n : Nat} (runs : run source n = some s) : run source (n + 1) = step source s := by
  rw [run, runs]
  rfl

/-- Whatever the text, there is no step that fails, and the cursors are in step behind each of them. -/
theorem run_inStep (source : String) (n : Nat) :
    ∃ s f text, run source n = some s ∧ InStep source f text s ∧
    (s.phase.inside = true → Began source n s text) := by
  induction n with
  | zero => exact ⟨_, _, _, rfl, .ofSource source, nofun⟩
  | succ n ih =>
    obtain ⟨s, f, text, runs, inStep, began⟩ := ih
    obtain ⟨s', steps, turn⟩ := step_turn inStep
    obtain ⟨f', text', inStep', goesOn, begins⟩ := turn.inStep inStep
    have runs' : run source (n + 1) = some s' := (run_succ runs).trans steps
    refine ⟨s', f', text', runs', inStep', fun within' => ?_⟩
    have last (k : Nat) (s'' : Scanner) (isLast : k = n + 1) (runs'' : run source k = some s'') :
        s''.phase.inside = true := by
      subst isLast
      obtain rfl : s' = s'' := Option.some.inj (runs'.symm.trans runs'')
      exact within'
    cases within : s.phase.inside with
    | true =>
      -- the lexeme began earlier, and only grows
      obtain ⟨m, s₀, before, runs₀, between, start, ahead, since⟩ := began within
      obtain ⟨sameFront, taken, rfl, next⟩ := goesOn within
      refine ⟨m, s₀, Nat.lt_succ_of_lt before, runs₀, between, ?_, ?_, fun k s'' later upTo runs'' => ?_⟩
      · rw [start, inStep.lexemeStart_eq, inStep'.lexemeStart_eq, sameFront]
      · rw [ahead, next, List.append_assoc]
      · rcases Nat.lt_or_eq_of_le upTo with earlier | isLast
        · exact since k s'' later (Nat.le_of_lt_succ earlier) runs''
        · exact last k s'' isLast runs''
    | false =>
      -- the lexeme begins with this step
      have between : s.phase = .between := by
        cases phase : s.phase with
        | between => rfl
        | done =>
          obtain rfl : s = s' := Option.some.inj ((step_of_done phase).symm.trans steps)
          rw [phase] at within'
          cases within'
        | _ =>
          rw [phase] at within
          cases within
      obtain ⟨sameFront, next⟩ := begins between within'
      refine ⟨n, s, Nat.lt_succ_self n, runs, between, ?_, next, fun k s'' later upTo runs'' => ?_⟩
      · rw [inStep'.lexemeStart_eq, sameFront, inStep.current_eq]
      · exact last k s'' (Nat.le_antisymm upTo later) runs''

/-- From one lexeme to the next, something is taken. -/
theorem current_lt {m n : Nat} (before : m < n) (runs : run source m = some s)
    (between : s.phase = .between) (runs' : run source n = some s') :
    s'.phase = .done ∨ s.current < s'.current := by
  induction n generalizing s' with
  | zero => exact absurd before (Nat.not_lt_zero m)
  | succ n ih =>
    obtain ⟨s₁, f, text, runs₁, inStep, -⟩ := run_inStep source n
    obtain ⟨s₂, steps, turn⟩ := step_turn inStep
    obtain rfl : s₂ = s' := Option.some.inj ((steps.symm.trans (run_succ runs₁).symm).trans runs')
    rcases Nat.lt_or_eq_of_le (Nat.le_of_lt_succ before) with earlier | rfl
    · rcases ih earlier runs₁ with isDone | further
      · obtain rfl : s₁ = s₂ := Option.some.inj ((step_of_done isDone).symm.trans steps)
        exact Or.inl isDone
      · exact Or.inr (Nat.lt_of_lt_of_le further turn.current_le)
    · obtain rfl : s = s₁ := Option.some.inj (runs.symm.trans runs₁)
      exact (turn.of_between between).imp_right And.right

end Scanner

end LoxFrontEnd
