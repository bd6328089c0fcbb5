import StackCode.CommandLine.Response
import StackCode.Proofs.JsonText
import StackCode.Syntax.Writer

/-! # Trees survive being written

A tree that is written as JSON is read back as the same tree, whatever its nesting. The proof
follows the recursion by which trees are written: a record is read from all its fields, a tag
selects the alternative that was written, and an absent option is the only thing that is written as
`null`. Only the text of a tree can be nested too deeply to be read.
-/

namespace StackCode

open Json

namespace Json

variable {α : Type} {j v : Json}

theorem list_arr (items : List Json) (read : Json → Option α) :
    (arr items).list (fun v _ => read v) = items.mapM read := by
  simp only [list, items?, List.mapM_map]
  simp [Function.comp_def]

theorem mapM_map_eq_some {write : α → Json} {read : Json → Option α}
    (h : ∀ a, read (write a) = some a) (as : List α) : (as.map write).mapM read = some as := by
  induction as with
  | nil => rfl
  | cons a as ih => simp [h a, ih]

theorem natBelow?_int {n bound : Nat} (h : n < bound) : (int n).natBelow? bound = some n := by
  have h' : (n : Int) < bound := by exact_mod_cast h
  simp [natBelow?, int?, h']

theorem uint32?_int (n : UInt32) : (int n.toNat).uint32? = some n := by
  simp only [uint32?, natBelow?_int n.toNat_lt_size, Option.map_some, UInt32.ofNat_toNat]

theorem int64?_int (n : Int64) : (int n.toInt).int64? = some n := by
  have h : Int64.minValue.toInt ≤ n.toInt ∧ n.toInt ≤ Int64.maxValue.toInt :=
    ⟨n.minValue_le_toInt, n.toInt_le⟩
  change (if _ then _ else _) = _
  rw [if_pos h, Int64.ofInt_toInt]

theorem nullable_of_ne_null (hv : v ≠ null) (h : sizeOf v < sizeOf j) (read : Json → Option α) :
    nullable v h (fun v _ => read v) = (read v).map some := by
  cases v <;> first | contradiction | rfl

theorem optional_some (h : sizeOf v < sizeOf j)
    (read : (v : Json) → sizeOf v < sizeOf j → Option α) :
    optional (some ⟨v, h⟩) read = nullable v h read := by
  cases v <;> rfl

/-- What was written for an option is read as that option wherever it stands. -/
def ReadsOption (read : Json → Option α) (written : Json) (a : Option α) : Prop :=
  ∀ (j : Json) (h : sizeOf written < sizeOf j), nullable written h (fun v _ => read v) = some a

theorem readsOption_null (read : Json → Option α) : ReadsOption read null none := fun _ _ => rfl

theorem readsOption_some {read : Json → Option α} {a : α} (hv : v ≠ null) (h : read v = some a) :
    ReadsOption read v (some a) := by
  intro j hj
  simp [nullable_of_ne_null hv, h]

theorem readsOption_str (s : Option String) : ReadsOption str? (ofOption str s) s := by
  cases s with
  | none => exact readsOption_null str?
  | some s => exact readsOption_some (by simp [ofOption]) (rfl : (str s).str? = some s)

end Json

/-! ## Trees without statements -/

theorem Location.ofJson?_obj (line column : Json) :
    Location.ofJson? (obj [("line", line), ("column", column)]) =
      line.uint32?.bind fun l => column.uint32?.bind fun c => some ⟨l, c⟩ := by
  simp [Location.ofJson?, record?, member?, required, defaulted]

@[simp] theorem Location.ofJson?_toJson (loc : Location) :
    Location.ofJson? loc.toJson = some loc := by
  rw [Location.toJson, Location.ofJson?_obj, uint32?_int, uint32?_int]
  rfl

@[simp] theorem BinaryOp.ofJson?_tag (op : BinaryOp) :
    BinaryOp.ofJson? (bareTag op.tag) = some op := by
  cases op <;> rfl

@[simp] theorem UnaryOp.ofJson?_tag (op : UnaryOp) :
    UnaryOp.ofJson? (bareTag op.tag) = some op := by
  cases op <;> rfl

@[simp] theorem Literal.ofJson?_toJson (l : Literal) : Literal.ofJson? l.toJson = some l := by
  cases l <;> simp [Literal.toJson, Literal.ofJson?, tagged, bareTag, variant?, bareTag?, bool?,
    str?, int64?_int]

namespace Ty

mutual

@[simp] theorem read?_toJson (form : RecordForm) : ∀ t : Ty, read? form t.toJson = some t
  | .int | .bool | .string | .pointer | .none | .any | .struct _ | .enum _ => by
    rw [read?.eq_def]
    rfl
  | .function params returns => by
    have hparams := mapM_read?_toJsons form params
    have hreturns := read?_toJson form returns
    rw [read?.eq_def]
    change Option.bind (record? _ _ _) _ = _
    simp [record?, member?, required, list_arr, hparams, hreturns]
  | .array element => by
    have helement := read?_toJson form element
    rw [read?.eq_def]
    change Option.map _ _ = _
    simp [helement]
  | .dictionary key value => by
    have hkey := read?_toJson form key
    have hvalue := read?_toJson form value
    rw [read?.eq_def]
    change Option.bind _ _ = _
    simp [hkey, hvalue]

@[simp] theorem mapM_read?_toJsons (form : RecordForm) : ∀ ts : List Ty,
    (toJsons ts).mapM (read? form) = some ts
  | [] => by simp [toJsons]
  | t :: ts => by simp [toJsons, read?_toJson form t, mapM_read?_toJsons form ts]

end

end Ty

@[simp] theorem Param.read?_toJson (form : RecordForm) (p : Param) :
    Param.read? form p.toJson = some p := by
  simp [Param.read?, Param.toJson, record?, member?, required, defaulted, str?]

@[simp] theorem CaseDecl.ofJson?_toJson (c : CaseDecl) : CaseDecl.ofJson? c.toJson = some c := by
  simp [CaseDecl.ofJson?, CaseDecl.toJson, record?, member?, required, defaulted, str?, list_arr]

@[simp] theorem EnumDecl.ofJson?_toJson (decl : EnumDecl) :
    EnumDecl.ofJson? decl.toJson = some decl := by
  have hcases := mapM_map_eq_some CaseDecl.ofJson?_toJson decl.cases
  simp [EnumDecl.ofJson?, EnumDecl.toJson, record?, member?, required, defaulted, str?, list_arr,
    hcases]

/-! ## Statements and expressions

One lemma for each way to build a tree: it is read back if its parts are. -/

section Parts

variable {form : RecordForm} {e e' e'' : Expr} {value : Option Expr} {body : List Stmt}
  {elseBranch : Option (List Stmt)} {decl : FuncDecl} {loc : Location} {name : String} {ty : Ty}

theorem Expr.toJson_ne_null (e : Expr) : e.toJson ≠ null := by
  cases e
  simp [Expr.toJson]

theorem FuncDecl.toJson_ne_null (decl : FuncDecl) : decl.toJson ≠ null := by
  cases decl
  simp [FuncDecl.toJson]

namespace ExprKind

def PartsRead (form : RecordForm) : ExprKind → Prop
  | literal _ | var _ | selfRef => True
  | unary _ e | member e _ => Expr.read? form e.toJson = some e
  | binary e _ e' | assign e e' | subscript e e' =>
    Expr.read? form e.toJson = some e ∧ Expr.read? form e'.toJson = some e'
  | call e args => Expr.read? form e.toJson = some e ∧
      (Argument.toJsons args).mapM (Argument.read? form) = some args
  | func decl => FuncDecl.read? form decl.toJson = some decl
  | ite e e' e'' => Expr.read? form e.toJson = some e ∧ Expr.read? form e'.toJson = some e' ∧
      Expr.read? form e''.toJson = some e''
  | array es => (Expr.toJsons es).mapM (Expr.read? form) = some es
  | dictionary es => (Entry.toJsons es).mapM (Entry.read? form) = some es

theorem read?_of_parts {kind : ExprKind} (h : kind.PartsRead form) :
    read? form kind.toJson = some kind := by
  rw [read?.eq_def]
  cases kind with
  | var | selfRef => rfl
  | literal | func | array | dictionary =>
    change Option.map _ _ = _
    simp_all [PartsRead, list_arr]
  | unary | binary | assign | call | member | subscript | ite =>
    change Option.bind (record? _ _ _) _ = _
    simp_all [PartsRead, record?, member?, required, str?, list_arr]

end ExprKind

theorem Expr.read?_mk {kind : ExprKind} (h : kind.PartsRead form) :
    Expr.read? form (Expr.mk kind ty loc).toJson = some ⟨kind, ty, loc⟩ := by
  have hkind := ExprKind.read?_of_parts h
  rw [Expr.read?.eq_def]
  simp [Expr.toJson, record?, member?, required, defaulted, hkind]

theorem Entry.read?_mk (h : Expr.read? form e.toJson = some e)
    (h' : Expr.read? form e'.toJson = some e') :
    Entry.read? form (arr [e.toJson, e'.toJson]) = some ⟨e, e'⟩ := by
  rw [Entry.read?.eq_def]
  simp [items?, h, h']

theorem Argument.read?_mk (label : Option String) (h : Expr.read? form e.toJson = some e) :
    Argument.read? form (obj [("label", ofOption str label), ("value", e.toJson)]) =
      some ⟨label, e⟩ := by
  rw [Argument.read?.eq_def]
  simp [record?, member?, required, optional_some, readsOption_str label _ _, h]

theorem Stmt.readBlock?_obj (h : (Stmt.toJsons body).mapM (Stmt.read? form) = some body) :
    Stmt.readBlock? form (obj [("stmts", arr (Stmt.toJsons body))]) = some body := by
  rw [Stmt.readBlock?.eq_def]
  simp [record?, member?, required, list_arr, h]

namespace StmtKind

def PartsRead (form : RecordForm) : StmtKind → Prop
  | expr e => Expr.read? form e.toJson = some e
  | bind _ _ _ value | ret value =>
    ReadsOption (Expr.read? form) (Expr.optionToJson value) value
  | func decl => FuncDecl.read? form decl.toJson = some decl
  | struct decl => StructDecl.read? form decl.toJson = some decl
  | enum _ | .break | .continue => True
  | ite e body elseBranch => Expr.read? form e.toJson = some e ∧
      (Stmt.toJsons body).mapM (Stmt.read? form) = some body ∧
      ReadsOption (Stmt.readBlock? form) (Stmt.blockToJson elseBranch) elseBranch
  | loop e body => Expr.read? form e.toJson = some e ∧
      (Stmt.toJsons body).mapM (Stmt.read? form) = some body
  | block body => (Stmt.toJsons body).mapM (Stmt.read? form) = some body
  | cases e arms elseBranch => Expr.read? form e.toJson = some e ∧
      (Arm.toJsons arms).mapM (Arm.read? form) = some arms ∧
      ReadsOption (Stmt.readBlock? form) (Stmt.blockToJson elseBranch) elseBranch

theorem read?_of_parts {kind : StmtKind} (h : kind.PartsRead form) :
    read? form kind.toJson = some kind := by
  rw [read?.eq_def]
  cases kind with
  | «break» | «continue» => rfl
  | ret value =>
    have hvalue : ReadsOption (Expr.read? form) (Expr.optionToJson value) value := h
    exact congrArg (Option.map ret) (hvalue _ _)
  | expr | func | struct | enum | block =>
    change Option.map _ _ = _
    simp_all [PartsRead, Stmt.readBlock?_obj]
  | bind =>
    change Option.bind (record? _ _ _) _ = _
    simp [record?, member?, required, defaulted, str?, bool?, optional_some, h _ _]
  | ite | loop | cases =>
    change Option.bind (record? _ _ _) _ = _
    simp_all [PartsRead, record?, member?, required, optional_some, list_arr, Stmt.readBlock?_obj,
      ReadsOption]

end StmtKind

theorem Stmt.read?_mk {kind : StmtKind} (h : kind.PartsRead form) :
    Stmt.read? form (Stmt.mk kind loc).toJson = some ⟨kind, loc⟩ := by
  have hkind := StmtKind.read?_of_parts h
  rw [Stmt.read?.eq_def]
  simp [Stmt.toJson, record?, member?, required, defaulted, hkind]

theorem Arm.read?_mk {p : Pattern} (loc : Location) (h : Pattern.read? form p.toJson = some p)
    (hbody : (Stmt.toJsons body).mapM (Stmt.read? form) = some body) :
    Arm.read? form (obj [("pattern", p.toJson), ("body", obj [("stmts", arr (Stmt.toJsons body))]),
      ("loc", loc.toJson)]) = some ⟨p, body, loc⟩ := by
  rw [Arm.read?.eq_def]
  simp [record?, member?, required, defaulted, h, Stmt.readBlock?_obj hbody]

namespace Pattern

def PartsRead (form : RecordForm) : Pattern → Prop
  | wildcard | binding _ => True
  | case _ ps => (toJsons ps).mapM (read? form) = some ps
  | .value e => Expr.read? form e.toJson = some e

theorem read?_of_parts {p : Pattern} (h : p.PartsRead form) : read? form p.toJson = some p := by
  rw [read?.eq_def]
  cases p with
  | wildcard | binding => rfl
  | case =>
    change Option.bind (record? _ _ _) _ = _
    simp_all [PartsRead, record?, member?, required, defaulted, str?, list_arr]
  | value =>
    change Option.map _ _ = _
    simp_all [PartsRead]

end Pattern

theorem FuncDecl.read?_mk {fname : Option String} {params : List Param}
    (hbody : (Stmt.toJsons body).mapM (Stmt.read? form) = some body) :
    FuncDecl.read? form (FuncDecl.mk fname params ty body loc).toJson =
      some ⟨fname, params, ty, body, loc⟩ := by
  have hparams := mapM_map_eq_some (Param.read?_toJson form) params
  rw [FuncDecl.read?.eq_def]
  simp [FuncDecl.toJson, record?, member?, required, defaulted, optional_some,
    readsOption_str fname _ _, list_arr, hparams, Stmt.readBlock?_obj hbody]

theorem PropertyDecl.read?_mk (name : String) (ty : Ty) (mutable : Bool)
    (h : ReadsOption (Expr.read? form) (Expr.optionToJson value) value) :
    PropertyDecl.read? form (obj [("name", str name), ("ty", ty.toJson),
      ("mutable", Json.bool mutable), ("default", Expr.optionToJson value)]) =
      some ⟨name, ty, mutable, value⟩ := by
  rw [PropertyDecl.read?.eq_def]
  simp [record?, member?, required, defaulted, str?, bool?, optional_some, h _ _]

theorem StructDecl.read?_mk {properties : List PropertyDecl} {init : Option FuncDecl}
    {methods : List FuncDecl}
    (hproperties : (PropertyDecl.toJsons properties).mapM (PropertyDecl.read? form) =
      some properties)
    (hinit : ReadsOption (FuncDecl.read? form) (FuncDecl.optionToJson init) init)
    (hmethods : (FuncDecl.toJsons methods).mapM (FuncDecl.read? form) = some methods) :
    StructDecl.read? form (StructDecl.mk name properties init methods loc).toJson =
      some ⟨name, properties, init, methods, loc⟩ := by
  rw [StructDecl.read?.eq_def]
  simp [StructDecl.toJson, record?, member?, Json.required, defaulted, str?, optional_some,
    list_arr, hproperties, hinit _ _, hmethods]

end Parts

/-- Every part of a tree is read back as what it was written for. -/
theorem Stmt.mapM_read?_toJsons (form : RecordForm) (ss : List Stmt) :
    (Stmt.toJsons ss).mapM (Stmt.read? form) = some ss := by
  apply Stmt.toJsons.induct
    (fun e => Expr.read? form e.toJson = some e)
    (fun kind => kind.PartsRead form)
    (fun es => (Entry.toJsons es).mapM (Entry.read? form) = some es)
    (fun es => (Expr.toJsons es).mapM (Expr.read? form) = some es)
    (fun decl => FuncDecl.read? form decl.toJson = some decl)
    (fun ss => (Stmt.toJsons ss).mapM (Stmt.read? form) = some ss)
    (fun s => Stmt.read? form s.toJson = some s)
    (fun kind => kind.PartsRead form)
    (fun arms => (Arm.toJsons arms).mapM (Arm.read? form) = some arms)
    (fun p => p.PartsRead form)
    (fun ps => (Pattern.toJsons ps).mapM (Pattern.read? form) = some ps)
    (fun body => ReadsOption (Stmt.readBlock? form) (Stmt.blockToJson body) body)
    (fun decl => StructDecl.read? form decl.toJson = some decl)
    (fun decls => (FuncDecl.toJsons decls).mapM (FuncDecl.read? form) = some decls)
    (fun decl => ReadsOption (FuncDecl.read? form) (FuncDecl.optionToJson decl) decl)
    (fun ps => (PropertyDecl.toJsons ps).mapM (PropertyDecl.read? form) = some ps)
    (fun value => ReadsOption (Expr.read? form) (Expr.optionToJson value) value)
    (fun args => (Argument.toJsons args).mapM (Argument.read? form) = some args)
  case case1 => exact fun _ _ _ => Expr.read?_mk
  case case15 => exact fun _ _ => Stmt.read?_mk
  case case47 =>
    intro p body loc arms hp hbody harms
    simp [Arm.toJsons, Arm.read?_mk loc (Pattern.read?_of_parts hp) hbody, harms]
  case case49 =>
    intro p ps hp hps
    simp [Pattern.toJsons, Pattern.read?_of_parts hp, hps]
  all_goals simp_all [ExprKind.PartsRead, StmtKind.PartsRead, Pattern.PartsRead, Entry.read?_mk,
    Argument.read?_mk, Stmt.readBlock?_obj, FuncDecl.read?_mk, PropertyDecl.read?_mk,
    StructDecl.read?_mk, readsOption_null, readsOption_some, Expr.toJson_ne_null,
    FuncDecl.toJson_ne_null, Entry.toJsons, Expr.toJsons, Stmt.toJsons, Arm.toJsons,
    Pattern.toJsons, Stmt.blockToJson, FuncDecl.toJsons, FuncDecl.optionToJson,
    PropertyDecl.toJsons, Expr.optionToJson, Argument.toJsons]

/-- Every file is read back from what it is written as, in each of the forms in which the fields of
alternatives may be given. -/
theorem SourceFile.read?_toJson (form : RecordForm) (file : SourceFile) :
    SourceFile.read? form file.toJson = some file := by
  have hstmts := Stmt.mapM_read?_toJsons form file.stmts
  simp [SourceFile.read?, SourceFile.toJson, record?, member?, required, str?, list_arr, hstmts]

/-! ## Texts of trees -/

section Texts

theorem plain_uint32 (n : UInt32) : (int n.toNat).Plain :=
  ⟨Int.le_trans (by decide) (Int.natCast_nonneg _),
    Int.ofNat_lt.mpr (Nat.lt_trans n.toNat_lt (by decide))⟩

theorem plain_int64 (n : Int64) : (int n.toInt).Plain :=
  ⟨n.minValue_le_toInt, Int.lt_of_le_of_lt n.toInt_le (by decide)⟩

theorem plain_ofOption (s : Option String) : (ofOption str s).Plain := by
  cases s <;> trivial

theorem plainItems_map {α : Type} {write : α → Json} (h : ∀ a, (write a).Plain) (as : List α) :
    PlainItems (as.map write) := by
  induction as with
  | nil => trivial
  | cons a as ih => exact ⟨h a, ih⟩

theorem Location.toJson_plain (loc : Location) : loc.toJson.Plain :=
  ⟨plain_uint32 _, plain_uint32 _, trivial⟩

theorem Ty.toJsons_plain (ts : List Ty) : PlainItems (Ty.toJsons ts) := by
  apply Ty.toJsons.induct (fun t => t.toJson.Plain) (fun ts => PlainItems (Ty.toJsons ts))
  all_goals simp_all [Ty.toJson, Ty.toJsons, tagged, bareTag, Plain, PlainItems, PlainMembers]

theorem Ty.toJson_plain (t : Ty) : t.toJson.Plain := (Ty.toJsons_plain [t]).1

theorem Literal.toJson_plain (l : Literal) : l.toJson.Plain := by
  cases l with
  | int n => exact ⟨plain_int64 n, trivial⟩
  | none => trivial
  | _ => exact ⟨trivial, trivial⟩

theorem Param.toJson_plain (p : Param) : p.toJson.Plain := ⟨trivial, p.ty.toJson_plain, trivial⟩

theorem CaseDecl.toJson_plain (c : CaseDecl) : c.toJson.Plain :=
  ⟨trivial, Ty.toJsons_plain c.values, trivial⟩

/-- The only numbers that are written are literals and the positions of nodes. -/
theorem Stmt.toJsons_plain (ss : List Stmt) : PlainItems (Stmt.toJsons ss) := by
  apply Stmt.toJsons.induct (·.toJson.Plain) (·.toJson.Plain) (PlainItems <| Entry.toJsons ·)
    (PlainItems <| Expr.toJsons ·) (·.toJson.Plain) (PlainItems <| Stmt.toJsons ·)
    (·.toJson.Plain) (·.toJson.Plain) (PlainItems <| Arm.toJsons ·) (·.toJson.Plain)
    (PlainItems <| Pattern.toJsons ·) (Stmt.blockToJson · |>.Plain) (·.toJson.Plain)
    (PlainItems <| FuncDecl.toJsons ·) (FuncDecl.optionToJson · |>.Plain)
    (PlainItems <| PropertyDecl.toJsons ·) (Expr.optionToJson · |>.Plain)
    (PlainItems <| Argument.toJsons ·)
  all_goals simp_all [Expr.toJson, ExprKind.toJson, Entry.toJsons, Expr.toJsons, FuncDecl.toJson,
    Stmt.toJsons, Stmt.toJson, StmtKind.toJson, Arm.toJsons, Pattern.toJson, Pattern.toJsons,
    Stmt.blockToJson, StructDecl.toJson, FuncDecl.toJsons, FuncDecl.optionToJson, EnumDecl.toJson,
    PropertyDecl.toJsons, Expr.optionToJson, Argument.toJsons, tagged, bareTag, Plain, PlainItems,
    PlainMembers, Location.toJson_plain, Ty.toJson_plain, Literal.toJson_plain, plain_ofOption,
    plainItems_map Param.toJson_plain, plainItems_map CaseDecl.toJson_plain]

open CommandLine.Invocation

theorem sourcesOf?_of_parse? {file : SourceFile} {text : String}
    (h : parse? text = some file.toJson) :
    sourcesOf? text = if file.toJson.depth ≤ maxNesting then some [file] else none := by
  unfold sourcesOf?
  rw [h]
  dsimp only [Option.bind_eq_bind, Option.bind_some]
  rw [file.read?_toJson .listed]
  by_cases hd : file.toJson.depth ≤ maxNesting
  · rw [if_pos hd, if_neg (Nat.not_lt.mpr hd)]
    rfl
  · rw [if_neg hd, if_pos (Nat.not_le.mp hd)]
    rfl

theorem SourceFile.parse?_render (file : SourceFile) :
    parse? file.toJson.render = some file.toJson :=
  Json.parse?_render ⟨trivial, Stmt.toJsons_plain file.stmts, trivial⟩

/-- What is written for a file is a text of its tree. A file is read back from any text of its tree,
unless it is nested too deeply: then it is refused. -/
theorem SourceFile.written_reads_back (file : SourceFile) :
    parse? file.toJson.render = some file.toJson ∧
      ∀ text, parse? text = some file.toJson →
        sourcesOf? text = if file.toJson.depth ≤ maxNesting then some [file] else none :=
  ⟨file.parse?_render, fun _ => sourcesOf?_of_parse?⟩

/-- A file that gives back a number behind so many signs. -/
def negatedFile (n : Nat) : SourceFile :=
  let loc := Location.synthesized
  let zero : Expr := ⟨.literal (.int 0), .int, loc⟩
  let value := n.fold (fun _ _ e => (⟨.unary .neg e, .int, loc⟩ : Expr)) zero
  ⟨"a.pl", [⟨.ret (some value), loc⟩]⟩

theorem written_reads_back_negated : (negatedFile 40).toJson.depth = maxNesting ∧
    sourcesOf? (negatedFile 40).toJson.render = some [negatedFile 40] := by
  have hdepth : (negatedFile 40).toJson.depth = maxNesting := by decide +kernel
  obtain ⟨hparse, hread⟩ := (negatedFile 40).written_reads_back
  exact ⟨hdepth, (hread _ hparse).trans (if_pos (Nat.le_of_eq hdepth))⟩

/-- One sign more, and the text of the tree is refused. -/
theorem negated_unread : SourceFile.read? .listed (negatedFile 41).toJson = some (negatedFile 41) ∧
    sourcesOf? (negatedFile 41).toJson.render = none :=
  ⟨(negatedFile 41).read?_toJson .listed,
    (sourcesOf?_of_parse? (negatedFile 41).parse?_render).trans (if_neg (by decide +kernel))⟩

end Texts

end StackCode
