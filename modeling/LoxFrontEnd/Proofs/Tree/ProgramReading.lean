import LoxFrontEnd.Proofs.Tree.FormReading

/-!
Printed statements and programs read back. Statements stand where statements are asked for, so that
their groups are never taken for those of expressions; and each declaration of a program has a line of
its own.
-/

namespace LoxFrontEnd

namespace Form

/-- Parameters stand in their group as bare names. -/
def parameters? : List Form → Option (List Parameter)
  | [] => some []
  | .atom name :: forms => do return ⟨name, 0⟩ :: (← parameters? forms)
  | .group _ :: _ => none

mutual

/-- The statement that a form shows. -/
def stmt? : Form → Option Stmt
  | .group [.atom "expr", e] => do return .expr (← e.expr?)
  | .group [.atom "print", e] => do return .print (← e.expr?)
  | .group [.atom "return"] => some (.ret none 0)
  | .group [.atom "return", value] => do return .ret (some (← value.expr?)) 0
  | .group (.atom "block" :: body) => do return .block (← stmts? body)
  | .group [.atom "if", condition, thenBranch] => do
    return .ifElse (← condition.expr?) (← thenBranch.stmt?) none
  | .group [.atom "if", condition, thenBranch, elseBranch] => do
    return .ifElse (← condition.expr?) (← thenBranch.stmt?) (some (← elseBranch.stmt?))
  | .group [.atom "while", condition, body] => do return .whileLoop (← condition.expr?) (← body.stmt?)
  | .group [.atom "var", .atom name] => some (.varDecl name none 0)
  | .group [.atom "var", .atom name, initializer] => do return .varDecl name (some (← initializer.expr?)) 0
  | .group (.atom "fun" :: parts) => do return .funDecl (← function? parts)
  | .group (.atom "class" :: .atom name :: .group [.atom "<", .atom superclass] :: methods) => do
    return .classDecl name (some superclass) (← methods? methods) 0
  | .group (.atom "class" :: .atom name :: methods) => do return .classDecl name none (← methods? methods) 0
  | _ => none

def stmts? : List Form → Option (List Stmt)
  | [] => some []
  | form :: forms => do return (← form.stmt?) :: (← stmts? forms)

/-- What stands behind the word that a function begins with. -/
def function? : List Form → Option Function
  | [.atom name, .group parameters, .group (.atom "block" :: body)] => do
    return ⟨name, ← parameters? parameters, ← stmts? body, 0⟩
  | _ => none

def methods? : List Form → Option (List Function)
  | [] => some []
  | .group (.atom "method" :: parts) :: forms => do return (← function? parts) :: (← methods? forms)
  | _ => none

end

end Form

namespace Stmt

open Form

/-- A statement as it is read back. -/
abbrev unlined (s : Stmt) : Stmt := s.nameInfinite.mapLines fun _ => 0

abbrev unlinedAll (ss : List Stmt) : List Stmt := mapLinesAll (fun _ => 0) (nameInfiniteAll ss)

abbrev functionUnlined (f : Function) : Function := functionMapLines (fun _ => 0) (functionNameInfinite f)

abbrev methodsUnlined (fs : List Function) : List Function :=
  methodsMapLines (fun _ => 0) (methodsNameInfinite fs)

theorem worded_parameters {ps : List Parameter} (readable : ∀ p ∈ ps, IsName p.name) :
    WordedAll (ps.map fun p => .atom p.name) := by
  induction ps with
  | nil => trivial
  | cons p ps ih =>
    obtain ⟨first, others⟩ := List.forall_mem_cons.mp readable
    exact ⟨first.isWord, ih others⟩

mutual

theorem worded_form (s : Stmt) (readable : s.Readable) : s.form.Worded := by
  match s with
  | .expr e | .print e => exact ⟨.plain (by decide), e.worded_form readable, trivial⟩
  | .ret none _ => exact ⟨.plain (by decide), trivial⟩
  | .ret (some value) _ => exact ⟨.plain (by decide), value.worded_form readable, trivial⟩
  | .block body => exact ⟨.plain (by decide), worded_forms body readable⟩
  | .ifElse condition thenBranch none =>
    exact ⟨.plain (by decide), condition.worded_form readable.1, worded_form thenBranch readable.2, trivial⟩
  | .ifElse condition thenBranch (some elseBranch) =>
    exact ⟨.plain (by decide), condition.worded_form readable.1, worded_form thenBranch readable.2.1,
      worded_form elseBranch readable.2.2, trivial⟩
  | .whileLoop condition body =>
    exact ⟨.plain (by decide), condition.worded_form readable.1, worded_form body readable.2, trivial⟩
  | .varDecl name none _ => exact ⟨.plain (by decide), readable.1.isWord, trivial⟩
  | .varDecl name (some initializer) _ =>
    exact ⟨.plain (by decide), readable.1.isWord, initializer.worded_form readable.2, trivial⟩
  | .funDecl function => exact worded_functionForm (.plain (by decide)) function readable
  | .classDecl name none methods _ =>
    exact ⟨.plain (by decide), readable.1.isWord, worded_methodForms methods readable.2.2⟩
  | .classDecl name (some superclass) methods _ =>
    have above : IsName superclass := readable.2.1 superclass rfl
    exact ⟨.plain (by decide), readable.1.isWord,
      ⟨.plain (by decide), above.isWord, trivial⟩, worded_methodForms methods readable.2.2⟩

theorem worded_forms (ss : List Stmt) (readable : ReadableAll ss) : WordedAll (forms ss) := by
  match ss with
  | [] => trivial
  | s :: ss => exact ⟨worded_form s readable.1, worded_forms ss readable.2⟩

theorem worded_functionForm {keyword : String} (isWord : IsWord keyword) (f : Function)
    (readable : FunctionReadable f) : (functionForm keyword f).Worded := by
  match f with
  | ⟨name, parameters, body, _⟩ =>
    exact ⟨isWord, readable.1.isWord, worded_parameters readable.2.1,
      ⟨.plain (by decide), worded_forms body readable.2.2⟩, trivial⟩

theorem worded_methodForms (fs : List Function) (readable : MethodsReadable fs) :
    WordedAll (methodForms fs) := by
  match fs with
  | [] => trivial
  | f :: fs =>
    exact ⟨worded_functionForm (.plain (by decide)) f readable.1, worded_methodForms fs readable.2⟩

end

theorem parameters_unlined (ps : List Parameter) :
    ((ps.map (Parameter.mapLine fun _ => 0)).map fun p => Form.atom p.name) =
      ps.map fun p => .atom p.name := by
  rw [List.map_map]
  rfl

mutual

theorem form_unlined (s : Stmt) (readable : s.Readable) : s.unlined.form = s.form := by
  match s with
  | .expr e => exact congrArg (fun e => Form.group [.atom "expr", e]) (e.form_unlined readable)
  | .print e => exact congrArg (fun e => Form.group [.atom "print", e]) (e.form_unlined readable)
  | .ret none _ => rfl
  | .ret (some value) _ =>
    exact congrArg (fun value => Form.group [.atom "return", value]) (value.form_unlined readable)
  | .block body =>
    exact congrArg (fun body => Form.group (.atom "block" :: body)) (forms_unlined body readable)
  | .ifElse condition thenBranch none =>
    exact congrArg₂ (fun condition thenBranch => Form.group [.atom "if", condition, thenBranch])
      (condition.form_unlined readable.1) (form_unlined thenBranch readable.2)
  | .ifElse condition thenBranch (some elseBranch) =>
    show Form.group
      [.atom "if", condition.unlined.form, thenBranch.unlined.form, elseBranch.unlined.form] = _
    rw [condition.form_unlined readable.1, form_unlined thenBranch readable.2.1,
      form_unlined elseBranch readable.2.2]
    rfl
  | .whileLoop condition body =>
    exact congrArg₂ (fun condition body => Form.group [.atom "while", condition, body])
      (condition.form_unlined readable.1) (form_unlined body readable.2)
  | .varDecl name none _ => rfl
  | .varDecl name (some initializer) _ =>
    exact congrArg (fun initializer => Form.group [.atom "var", .atom name, initializer])
      (initializer.form_unlined readable.2)
  | .funDecl function => exact functionForm_unlined "fun" function readable
  | .classDecl name none methods _ =>
    exact congrArg (fun methods => Form.group (.atom "class" :: .atom name :: methods))
      (methodForms_unlined methods readable.2.2)
  | .classDecl name (some superclass) methods _ =>
    exact congrArg
      (fun methods =>
        Form.group (.atom "class" :: .atom name :: .group [.atom "<", .atom superclass] :: methods))
      (methodForms_unlined methods readable.2.2)

theorem forms_unlined (ss : List Stmt) (readable : ReadableAll ss) : forms (unlinedAll ss) = forms ss := by
  match ss with
  | [] => rfl
  | s :: ss => exact congrArg₂ List.cons (form_unlined s readable.1) (forms_unlined ss readable.2)

theorem functionForm_unlined (keyword : String) (f : Function) (readable : FunctionReadable f) :
    functionForm keyword (functionUnlined f) = functionForm keyword f := by
  match f with
  | ⟨name, parameters, body, _⟩ =>
    exact congrArg₂
      (fun parameters body =>
        Form.group [.atom keyword, .atom name, .group parameters, .group (.atom "block" :: body)])
      (parameters_unlined parameters) (forms_unlined body readable.2.2)

theorem methodForms_unlined (fs : List Function) (readable : MethodsReadable fs) :
    methodForms (methodsUnlined fs) = methodForms fs := by
  match fs with
  | [] => rfl
  | f :: fs =>
    exact congrArg₂ List.cons (functionForm_unlined "method" f readable.1)
      (methodForms_unlined fs readable.2)

end

theorem parameters?_names (ps : List Parameter) :
    parameters? (ps.map fun p => .atom p.name) = some (ps.map (Parameter.mapLine fun _ => 0)) := by
  induction ps with
  | nil => rfl
  | cons p ps ih =>
    rw [List.map_cons, parameters?, ih]
    rfl

/-- A method is not taken for a superclass. -/
theorem methodForms_ne (fs : List Function) (above : String) (others : List Form) :
    methodForms fs ≠ .group [.atom "<", .atom above] :: others := by
  intro same
  match fs with
  | [] => cases same
  | ⟨name, parameters, body, _⟩ :: fs =>
    have parts := Form.group.inj (List.cons.inj same).1
    cases congrArg List.length parts

mutual

theorem stmt?_form (s : Stmt) (readable : s.Readable) : s.form.stmt? = some s.unlined := by
  match s with
  | .expr e | .print e =>
    rw [form, stmt?, e.expr?_form readable]
    rfl
  | .ret none _ => rfl
  | .ret (some value) _ =>
    rw [form, stmt?, value.expr?_form readable]
    rfl
  | .block body =>
    rw [form, stmt?, stmts?_forms body readable]
    rfl
  | .ifElse condition thenBranch none =>
    rw [form, stmt?, condition.expr?_form readable.1, stmt?_form thenBranch readable.2]
    rfl
  | .ifElse condition thenBranch (some elseBranch) =>
    rw [form, stmt?, condition.expr?_form readable.1, stmt?_form thenBranch readable.2.1,
      stmt?_form elseBranch readable.2.2]
    rfl
  | .whileLoop condition body =>
    rw [form, stmt?, condition.expr?_form readable.1, stmt?_form body readable.2]
    rfl
  | .varDecl name none _ => rfl
  | .varDecl name (some initializer) _ =>
    rw [form, stmt?, initializer.expr?_form readable.2]
    rfl
  | .funDecl function =>
    match function with
    | ⟨name, parameters, body, _⟩ =>
      rw [form, functionForm, stmt?, function?, parameters?_names, stmts?_forms body readable.2.2]
      rfl
  | .classDecl name none methods _ =>
    rw [form, stmt?, methods?_methodForms methods readable.2.2]
    · rfl
    · exact methodForms_ne methods
  | .classDecl name (some superclass) methods _ =>
    rw [form, stmt?, methods?_methodForms methods readable.2.2]
    rfl

theorem stmts?_forms (ss : List Stmt) (readable : ReadableAll ss) :
    stmts? (forms ss) = some (unlinedAll ss) := by
  match ss with
  | [] => rfl
  | s :: ss =>
    rw [forms, stmts?, stmt?_form s readable.1, stmts?_forms ss readable.2]
    rfl

theorem methods?_methodForms (fs : List Function) (readable : MethodsReadable fs) :
    methods? (methodForms fs) = some (methodsUnlined fs) := by
  match fs with
  | [] => rfl
  | ⟨name, parameters, body, _⟩ :: fs =>
    rw [methodForms, functionForm, methods?, function?, parameters?_names, stmts?_forms body readable.1.2.2,
      methods?_methodForms fs readable.2]
    rfl

end

end Stmt

namespace Stmt

theorem forms_eq_map (ss : List Stmt) : forms ss = ss.map form := by
  induction ss with
  | nil => rfl
  | cons s ss ih => rw [forms, ih, List.map_cons]

theorem readableAll_iff {ss : List Stmt} : ReadableAll ss ↔ ∀ s ∈ ss, s.Readable := by
  induction ss with
  | nil => exact iff_of_true trivial nofun
  | cons s ss ih => rw [ReadableAll, ih, List.forall_mem_cons]

end Stmt

namespace Program

open Stmt

/-- The lines that a program is printed on. -/
def lines (p : Program) : List (List Char) := p.declarations.map fun s => s.text.toList

variable {p q : Program}

theorem toList_text (p : Program) : p.text.toList = ['\n'].intercalate p.lines := by
  rw [text, String.toList_intercalate, List.map_map]
  rfl

theorem Readable.line {line : List Char} (readable : p.Readable) (member : line ∈ p.lines) :
    line ≠ [] ∧ '\n' ∉ line := by
  obtain ⟨s, declared, rfl⟩ := List.mem_map.mp member
  have worded := s.worded_form (readableAll_iff.mp readable s declared)
  obtain ⟨c, others, chars, -⟩ := Form.first_text worded
  exact ⟨fun none => List.cons_ne_nil c others (chars.symm.trans none), s.form.newline_not_mem worded⟩

/-- The text falls into the texts of the declarations, line by line. -/
theorem Readable.splitOn_text (readable : p.Readable) (some : p.declarations ≠ []) :
    p.text.toList.splitOn '\n' = p.lines := by
  rw [toList_text]
  exact List.splitOn_intercalate '\n' (fun line member => (readable.line member).2)
    (mt List.map_eq_nil_iff.mp some)

theorem Readable.text_eq_empty (readable : p.Readable) : p.text = "" ↔ p.declarations = [] := by
  constructor
  · intro empty
    by_contra some
    have split := readable.splitOn_text some
    rw [empty] at split
    have line : [] ∈ p.lines := split ▸ List.mem_singleton.mpr rfl
    exact (readable.line line).1 rfl
  · intro none
    rw [text, none]
    rfl

theorem Readable.lines_inj (readable : p.Readable) (readable' : q.Readable) (same : p.text = q.text) :
    p.lines = q.lines := by
  by_cases none : p.declarations = []
  · have none' := readable'.text_eq_empty.mp (same.symm.trans (readable.text_eq_empty.mpr none))
    rw [lines, lines, none, none']
  · have some' := fun none' =>
      none (readable.text_eq_empty.mp (same.trans (readable'.text_eq_empty.mpr none')))
    rw [← readable.splitOn_text none, ← readable'.splitOn_text some', same]

/-- Readable programs are printed alike exactly if they are the same program, up to lines and to
numbers that are not finite. -/
theorem Readable.text_eq_iff (readable : p.Readable) (readable' : q.Readable) :
    p.text = q.text ↔ p.nameInfinite.Alike q.nameInfinite := by
  constructor
  · intro same
    have texts : (forms p.declarations).map Form.text = (forms q.declarations).map Form.text := by
      refine List.map_injective_iff.mpr (fun _ _ => String.toList_inj.mp) ?_
      rw [forms_eq_map, forms_eq_map, List.map_map, List.map_map, List.map_map, List.map_map]
      exact readable.lines_inj readable' same
    have shown := Form.map_text_inj (worded_forms _ readable) (worded_forms _ readable') texts
    have back := stmts?_forms p.declarations readable
    rw [shown, stmts?_forms q.declarations readable'] at back
    exact congrArg Program.mk (Option.some.inj back).symm
  · intro alike
    have unlined : unlinedAll p.declarations = unlinedAll q.declarations := Program.mk.inj alike
    have shown : forms p.declarations = forms q.declarations := by
      rw [← forms_unlined p.declarations readable, unlined, forms_unlined q.declarations readable']
    have texts : p.declarations.map Stmt.text = q.declarations.map Stmt.text := by
      rw [forms_eq_map, forms_eq_map] at shown
      have texts := congrArg (List.map Form.text) shown
      rwa [List.map_map, List.map_map] at texts
    rw [text, texts, text]

end Program

end LoxFrontEnd
