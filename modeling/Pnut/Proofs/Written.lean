import Pnut.Proofs.Built
import Pnut.Proofs.Spaced

/-!
# Written files

The concrete syntax of a file as lists of tokens. Parentheses are needed where the grammar has
them, around a filter below a tighter operator or a bitwise OR below another, and allowed around
any filter and any value: `Written…` relates a tree to each of its spellings. `fileTokens` is the
spelling with all the parentheses.
-/

namespace Pnut.Kafel

open Peg

/-! ## Trees without spans -/

namespace Ast

mutual

def Expr.strip : Expr → Expr
  | .number n => .number n
  | .ident name _ => .ident name default
  | .bitOr parts => .bitOr (Expr.stripAll parts)

def Expr.stripAll : List Expr → List Expr
  | [] => []
  | e :: es => e.strip :: Expr.stripAll es

end

def Action.strip : Action → Action
  | .errno value => .errno value.strip
  | .trap value => .trap value.strip
  | .trace value => .trace value.strip
  | action => action

def CmpLhs.strip : CmpLhs → CmpLhs
  | .arg name _ => .arg name default
  | .masked name _ mask => .masked name default mask.strip

def BoolExpr.strip : BoolExpr → BoolExpr
  | .compare lhs op rhs => .compare lhs.strip op rhs.strip
  | .and a b => .and a.strip b.strip
  | .or a b => .or a.strip b.strip
  | .not inner => .not inner.strip
  | .literal value => .literal value

def SyscallRule.strip (rule : SyscallRule) : SyscallRule :=
  { rule with nameSpan := default, filter := rule.filter.map BoolExpr.strip }

def ActionBlock.strip (block : ActionBlock) : ActionBlock :=
  ⟨block.action.strip, block.rules.map SyscallRule.strip⟩

def PolicyEntry.strip : PolicyEntry → PolicyEntry
  | .actionBlock block => .actionBlock block.strip
  | .useRef name _ => .useRef name default

def Policy.strip (policy : Policy) : Policy :=
  ⟨policy.name, policy.entries.map PolicyEntry.strip⟩

def UseStmt.strip (useStmt : UseStmt) : UseStmt :=
  ⟨useStmt.policies.map fun p => (p.1, default), useStmt.defaultAction.strip⟩

/-- The file without its source spans. -/
def PolicyFile.strip (file : PolicyFile) : PolicyFile where
  includes := file.includes.map fun i => ⟨i.filename, default⟩
  defines := file.defines.map fun d => (d.1, d.2.strip)
  policies := file.policies.map Policy.strip
  useStmt := file.useStmt.map UseStmt.strip

/-- One atom, or the bitwise OR of several. -/
def Expr.ofAtoms : List Expr → Expr
  | [e] => e
  | es => .bitOr es

end Ast

def nameTok (name : String) : Token := .of name.toList

def CmpOp.text : CmpOp → String
  | .eq => "==" | .ne => "!=" | .lt => "<" | .le => "<=" | .gt => ">" | .ge => ">="

/-! ## Spellings -/

/-- Where a value stands: as a whole, or as an operand of `|`. -/
inductive Place where
  | value | atom

inductive WrittenExpr : Place → Ast.Expr → List Token → Prop where
  | number {t n} (ht : IsNumber t.text) (hn : literalValue t.text = n.toNat) :
      WrittenExpr .atom (.number n) [t]
  | ident {name span} (h : IsIdent name.toList) :
      WrittenExpr .atom (.ident name span) [nameTok name]
  | paren {e ts} (h : WrittenExpr .value e ts) :
      WrittenExpr .atom e (tok "(" :: (ts ++ [tok ")"]))
  | chain {e ts} (ops : List (Ast.Expr × List Token)) (h : WrittenExpr .atom e ts)
      (hops : ∀ p ∈ ops, WrittenExpr .atom p.1 p.2) :
      WrittenExpr .value (.ofAtoms (e :: ops.map (·.1))) (ts ++ ops.flatMap fun p => tok "|" :: p.2)

/-- How tightly a filter is bound where it stands. -/
inductive Level where
  | bool | or | and | not | primary

/-- The binary operators of filters. Both a comma and `||` are OR. -/
inductive Op where
  | comma | or | and

namespace Op

def sep : Op → String
  | comma => "," | or => "||" | and => "&&"

def level : Op → Level
  | comma => .bool | or => .or | and => .and

/-- The level of the operands. -/
def operand : Op → Level
  | comma => .or | or => .and | and => .not

def join : Op → Ast.BoolExpr → Ast.BoolExpr → Ast.BoolExpr
  | comma | or => .or
  | and => .and

end Op

inductive WrittenLhs : Ast.CmpLhs → List Token → Prop where
  | arg {name span} (h : IsIdent name.toList) : WrittenLhs (.arg name span) [nameTok name]
  | masked {name span mask ts} (h : IsIdent name.toList) (hmask : WrittenExpr .value mask ts) :
      WrittenLhs (.masked name span mask)
        (tok "(" :: nameTok name :: tok "&" :: (ts ++ [tok ")"]))

inductive WrittenBool : Level → Ast.BoolExpr → List Token → Prop where
  | chain (op : Op) {e ts} (ops : List (Ast.BoolExpr × List Token))
      (h : WrittenBool op.operand e ts) (hops : ∀ p ∈ ops, WrittenBool op.operand p.1 p.2) :
      WrittenBool op.level (ops.foldl (fun a p => op.join a p.1) e)
        (ts ++ ops.flatMap fun p => tok op.sep :: p.2)
  | not {e ts} (h : WrittenBool .not e ts) : WrittenBool .not (.not e) (tok "!" :: ts)
  | primary {e ts} (h : WrittenBool .primary e ts) : WrittenBool .not e ts
  | paren {e ts} (h : WrittenBool .bool e ts) :
      WrittenBool .primary e (tok "(" :: (ts ++ [tok ")"]))
  | compare {lhs op rhs ls rs} (hl : WrittenLhs lhs ls) (hr : WrittenExpr .value rhs rs) :
      WrittenBool .primary (.compare lhs op rhs) (ls ++ tok op.text :: rs)

inductive WrittenAction : Ast.Action → List Token → Prop where
  | allow : WrittenAction .allow [tok "ALLOW"]
  | kill : WrittenAction .kill [tok "KILL"]
  | killProcess : WrittenAction .killProcess [tok "KILL_PROCESS"]
  | log : WrittenAction .log [tok "LOG"]
  | userNotif : WrittenAction .userNotif [tok "USER_NOTIF"]
  | errno {value ts} (h : WrittenExpr .value value ts) :
      WrittenAction (.errno value) (tok "ERRNO" :: tok "(" :: (ts ++ [tok ")"]))
  | trap {value ts} (h : WrittenExpr .value value ts) :
      WrittenAction (.trap value) (tok "TRAP" :: tok "(" :: (ts ++ [tok ")"]))
  | trace {value ts} (h : WrittenExpr .value value ts) :
      WrittenAction (.trace value) (tok "TRACE" :: tok "(" :: (ts ++ [tok ")"]))

/-- `, name` for each name. -/
def moreNames (names : List String) : List Token :=
  names.flatMap fun name => [tok ",", nameTok name]

def argTokens : List String → List Token
  | [] => []
  | arg :: args => tok "(" :: nameTok arg :: (moreNames args ++ [tok ")"])

inductive WrittenFilter : Option Ast.BoolExpr → List Token → Prop where
  | none : WrittenFilter none []
  | some {f ts} (h : WrittenBool .bool f ts) :
      WrittenFilter (some f) (tok "\x7b" :: (ts ++ [tok "\x7d"]))

inductive WrittenRule : Ast.SyscallRule → List Token → Prop where
  | mk {rule ts} (hname : IsIdent rule.name.toList) (hargs : ∀ arg ∈ rule.args, IsIdent arg.toList)
      (hfilter : WrittenFilter rule.filter ts) :
      WrittenRule rule (nameTok rule.name :: (argTokens rule.args ++ ts))

inductive WrittenEntry : Ast.PolicyEntry → List Token → Prop where
  | actionBlock {action as rule rs} (rules : List (Ast.SyscallRule × List Token))
      (haction : WrittenAction action as) (hrule : WrittenRule rule rs)
      (hrules : ∀ p ∈ rules, WrittenRule p.1 p.2) :
      WrittenEntry (.actionBlock ⟨action, rule :: rules.map (·.1)⟩)
        (as ++ tok "\x7b" :: (rs ++ (rules.flatMap fun p => tok "," :: p.2) ++ [tok "\x7d"]))
  | useRef {name span} (h : IsIdent name.toList) :
      WrittenEntry (.useRef name span) [tok "USE", nameTok name]

/-- What stands at the top level of a file. -/
inductive Item where
  | include (i : Ast.Include)
  | define (name : String) (value : Ast.Expr)
  | policy (policy : Ast.Policy)
  | useStmt (useStmt : Ast.UseStmt)

inductive WrittenItem : Item → List Token → Prop where
  | include {i} (h : '"' ∉ i.filename.toList) :
      WrittenItem (.include i) [tok "#include", .of ('"' :: i.filename.toList ++ ['"'])]
  | define {name value ts} (hname : IsIdent name.toList) (h : WrittenExpr .value value ts) :
      WrittenItem (.define name value) (tok "#define" :: nameTok name :: ts)
  | policy {name} (entries : List (Ast.PolicyEntry × List Token)) (hname : IsIdent name.toList)
      (h : ∀ p ∈ entries, WrittenEntry p.1 p.2) :
      WrittenItem (.policy ⟨name, entries.map (·.1)⟩)
        (tok "POLICY" :: nameTok name :: tok "\x7b" :: (entries.flatMap (·.2) ++ [tok "\x7d"]))
  | useStmt {name span names action ts} (h : ∀ p ∈ (name, span) :: names, IsIdent p.1.toList)
      (haction : WrittenAction action ts) :
      WrittenItem (.useStmt ⟨(name, span) :: names, action⟩)
        (tok "USE" :: nameTok name :: (moreNames (names.map (·.1)) ++ tok "DEFAULT" :: ts))

def Ast.PolicyFile.items (file : Ast.PolicyFile) : List Item :=
  file.includes.map .include ++ file.defines.map (fun d => .define d.1 d.2) ++
    file.policies.map .policy ++ (file.useStmt.map Item.useStmt).toList

/-- The tokens spell the file, its items in their order. -/
def WrittenFile (file : Ast.PolicyFile) (ts : List Token) : Prop :=
  ∃ items : List (Item × List Token), items.map (·.1) = file.items ∧
    (∀ p ∈ items, WrittenItem p.1 p.2) ∧ ts = items.flatMap (·.2)

/-! ## The spelling with all parentheses -/

def numberTok (n : UInt64) : Token := .of (Nat.toDigits 10 n.toNat)

def parens (ts : List Token) : List Token := tok "(" :: (ts ++ [tok ")"])

mutual

def exprTokens : Ast.Expr → List Token
  | .number n => [numberTok n]
  | .ident name _ => [nameTok name]
  | .bitOr [] => []
  | .bitOr (e :: es) => parens (exprTokens e) ++ orTokens es

/-- `| (e)` for each operand. -/
def orTokens : List Ast.Expr → List Token
  | [] => []
  | e :: es => tok "|" :: (parens (exprTokens e) ++ orTokens es)

end

def lhsTokens : Ast.CmpLhs → List Token
  | .arg name _ => [nameTok name]
  | .masked name _ mask =>
    tok "(" :: nameTok name :: tok "&" :: (parens (exprTokens mask) ++ [tok ")"])

def boolTokens : Ast.BoolExpr → List Token
  | .compare lhs op rhs => lhsTokens lhs ++ tok op.text :: parens (exprTokens rhs)
  | .and a b => parens (boolTokens a) ++ tok "&&" :: parens (boolTokens b)
  | .or a b => parens (boolTokens a) ++ tok "||" :: parens (boolTokens b)
  | .not inner => tok "!" :: parens (boolTokens inner)
  | .literal _ => []

def actionTokens : Ast.Action → List Token
  | .allow => [tok "ALLOW"]
  | .kill => [tok "KILL"]
  | .killProcess => [tok "KILL_PROCESS"]
  | .log => [tok "LOG"]
  | .userNotif => [tok "USER_NOTIF"]
  | .errno value => tok "ERRNO" :: parens (parens (exprTokens value))
  | .trap value => tok "TRAP" :: parens (parens (exprTokens value))
  | .trace value => tok "TRACE" :: parens (parens (exprTokens value))

def filterTokens : Option Ast.BoolExpr → List Token
  | none => []
  | some f => tok "\x7b" :: (boolTokens f ++ [tok "\x7d"])

def ruleTokens (rule : Ast.SyscallRule) : List Token :=
  nameTok rule.name :: (argTokens rule.args ++ filterTokens rule.filter)

def rulesTokens : List Ast.SyscallRule → List Token
  | [] => []
  | rule :: rules => ruleTokens rule ++ rules.flatMap fun rule => tok "," :: ruleTokens rule

def entryTokens : Ast.PolicyEntry → List Token
  | .actionBlock block =>
    actionTokens block.action ++ tok "\x7b" :: (rulesTokens block.rules ++ [tok "\x7d"])
  | .useRef name _ => [tok "USE", nameTok name]

def itemTokens : Item → List Token
  | .include i => [tok "#include", .of ('"' :: i.filename.toList ++ ['"'])]
  | .define name value => tok "#define" :: nameTok name :: parens (exprTokens value)
  | .policy policy =>
    tok "POLICY" :: nameTok policy.name :: tok "\x7b" ::
      (policy.entries.flatMap entryTokens ++ [tok "\x7d"])
  | .useStmt ⟨[], action⟩ => tok "USE" :: tok "DEFAULT" :: actionTokens action
  | .useStmt ⟨(name, _) :: names, action⟩ =>
    tok "USE" :: nameTok name ::
      (moreNames (names.map (·.1)) ++ tok "DEFAULT" :: actionTokens action)

def fileTokens (file : Ast.PolicyFile) : List Token := file.items.flatMap itemTokens

theorem isSolid_of_isAlpha {c : Char} (h : (c.isAlpha || c == '_') = true) : isSolid c = true := by
  rw [isSolid, decide_eq_true_eq]
  intro hc
  simp only [List.mem_cons, List.not_mem_nil, or_false] at hc
  rcases hc with rfl | rfl | rfl | rfl | rfl <;> exact absurd h (by decide)

theorem isSolid_of_isDigit {c : Char} (h : c.isDigit = true) : isSolid c = true := by
  rw [isSolid, decide_eq_true_eq]
  intro hc
  simp only [List.mem_cons, List.not_mem_nil, or_false] at hc
  rcases hc with rfl | rfl | rfl | rfl | rfl <;> exact absurd h (by decide)

theorem nameTok_text {name : String} (h : IsIdent name.toList) :
    (nameTok name).text = name.toList := by
  obtain ⟨c, cs, hs, hc, -⟩ := h
  exact Token.of_text ⟨c, cs, hs, isSolid_of_isAlpha hc⟩

theorem numberTok_text (n : UInt64) : (numberTok n).text = Nat.toDigits 10 n.toNat := by
  refine Token.of_text ?_
  cases hs : Nat.toDigits 10 n.toNat with
  | nil => exact absurd hs Nat.toDigits_ne_nil
  | cons c s =>
    refine ⟨c, s, rfl, isSolid_of_isDigit ?_⟩
    exact Nat.isDigit_of_mem_toDigits (by decide) le_rfl (hs ▸ List.mem_cons_self)

theorem ofDigits_ten : ∀ {s : List Char} {acc : ℕ}, (∀ c ∈ s, c.isDigit = true) →
    ofDigits 10 acc s = Nat.ofDigitChars 10 s acc
  | [], acc, _ => by simp [ofDigits]
  | c :: s, acc, h => by
    simp only [List.mem_cons, forall_eq_or_imp] at h
    have hd : toDigit 10 c = some (c.toNat - '0'.toNat) := by
      have hc := isDigit_iff.1 h.1
      simp only [toDigit, h.1, if_true]
      rw [if_pos]
      change c.toNat - 48 < 10
      omega
    rw [Nat.ofDigitChars_cons, ← ofDigits_ten h.2, Nat.mul_comm]
    simp [ofDigits, hd]

theorem numberTok_written (n : UInt64) :
    IsNumber (numberTok n).text ∧ literalValue (numberTok n).text = n.toNat := by
  have hs : ∀ c ∈ Nat.toDigits 10 n.toNat, c.isDigit = true := fun c hc =>
    Nat.isDigit_of_mem_toDigits (by decide) le_rfl hc
  rw [numberTok_text]
  refine ⟨.inr (.inr ⟨Nat.toDigits_ne_nil, hs⟩), ?_⟩
  have hx : "0x".toList = ['0', 'x'] := rfl
  have ho : "0o".toList = ['0', 'o'] := rfl
  rw [literalValue, hx, ho, stripPrefix_of_isDigit (by decide) hs,
    stripPrefix_of_isDigit (by decide) hs]
  simp only []
  rw [ofDigits_ten hs, Nat.ofDigitChars_toDigits (by decide) le_rfl]

mutual

theorem exprTokens_written : ∀ {e : Ast.Expr}, e.Writable → WrittenExpr .value e (exprTokens e)
  | .number n, _ => by
    have hn := numberTok_written n
    exact .chain [] (.number hn.1 hn.2) (by simp)
  | .ident name span, h => .chain [] (.ident h) (by simp)
  | .bitOr [], h => by simp [Ast.Expr.Writable] at h
  | .bitOr (e :: es), h => by
    obtain ⟨ops, hfst, hops, heq⟩ := orTokens_written h.2.2
    rw [exprTokens, heq]
    have hne : ops ≠ [] := by
      rintro rfl
      obtain rfl : es = [] := by simpa using hfst.symm
      simp [Ast.Expr.Writable] at h
    have := WrittenExpr.chain ops (.paren (exprTokens_written h.2.1)) hops
    rw [hfst] at this
    cases es with
    | nil => simp at hfst; exact absurd hfst hne
    | cons e' es => exact this

theorem orTokens_written : ∀ {es : List Ast.Expr}, Ast.Expr.AllWritable es →
    ∃ ops : List (Ast.Expr × List Token), ops.map (·.1) = es ∧
      (∀ p ∈ ops, WrittenExpr .atom p.1 p.2) ∧
      orTokens es = ops.flatMap fun p => tok "|" :: p.2
  | [], _ => ⟨[], by simp, by simp, rfl⟩
  | e :: es, h => by
    obtain ⟨ops, hfst, hops, heq⟩ := orTokens_written h.2
    refine ⟨(e, parens (exprTokens e)) :: ops, by simp [hfst], ?_, by simp [orTokens, heq]⟩
    simp only [List.mem_cons, forall_eq_or_imp]
    exact ⟨.paren (exprTokens_written h.1), hops⟩

end

/-- A value, in parentheses of its own. -/
theorem parens_written {e : Ast.Expr} (h : e.Writable) :
    WrittenExpr .value e (parens (exprTokens e)) := by
  have := WrittenExpr.chain [] (.paren (exprTokens_written h)) (by simp)
  simpa [Ast.Expr.ofAtoms, parens] using this

theorem lhsTokens_written {lhs : Ast.CmpLhs} (h : lhs.Writable) :
    WrittenLhs lhs (lhsTokens lhs) := by
  cases lhs with
  | arg name span => exact .arg h
  | masked name span mask => exact .masked h.1 (parens_written h.2)

/-- A filter that is tightly bound stands at every looser level as well. -/
theorem WrittenBool.loosen (op : Op) {e : Ast.BoolExpr} {ts : List Token}
    (h : WrittenBool op.operand e ts) : WrittenBool op.level e ts := by
  simpa using WrittenBool.chain op [] h (by simp)

theorem WrittenBool.of_not {e : Ast.BoolExpr} {ts : List Token} (h : WrittenBool .not e ts) :
    WrittenBool .bool e ts :=
  loosen .comma (loosen .or (loosen .and h))

/-- One operator between two filters. -/
theorem WrittenBool.pair (op : Op) {a b : Ast.BoolExpr} {ts us : List Token}
    (ha : WrittenBool op.operand a ts) (hb : WrittenBool op.operand b us) :
    WrittenBool op.level (op.join a b) (ts ++ tok op.sep :: us) := by
  have := WrittenBool.chain op [(b, us)] ha fun p hp => by
    obtain rfl := List.mem_singleton.1 hp
    exact hb
  simpa only [List.foldl_cons, List.foldl_nil, List.flatMap_cons, List.flatMap_nil,
    List.append_nil] using this

theorem boolTokens_written : ∀ {e : Ast.BoolExpr}, e.Writable →
    WrittenBool .bool e (boolTokens e)
  | .compare lhs op rhs, h =>
    .of_not (.primary (.compare (lhsTokens_written h.1) (parens_written h.2)))
  | .and a b, h => by
    have ha := WrittenBool.primary (.paren (boolTokens_written h.1))
    have hb := WrittenBool.primary (.paren (boolTokens_written h.2))
    exact .loosen .comma (.loosen .or (.pair .and ha hb))
  | .or a b, h => by
    have ha := WrittenBool.primary (.paren (boolTokens_written h.1))
    have hb := WrittenBool.primary (.paren (boolTokens_written h.2))
    exact .loosen .comma
      (.pair .or (.loosen .and ha) (.loosen .and hb))
  | .not inner, h => .of_not (.not (.primary (.paren (boolTokens_written h))))
  | .literal _, h => h.elim

theorem actionTokens_written {action : Ast.Action} (h : action.Writable) :
    WrittenAction action (actionTokens action) := by
  cases action with
  | allow => exact .allow
  | kill => exact .kill
  | killProcess => exact .killProcess
  | log => exact .log
  | userNotif => exact .userNotif
  | errno value => exact .errno (parens_written h)
  | trap value => exact .trap (parens_written h)
  | trace value => exact .trace (parens_written h)

theorem ruleTokens_written {rule : Ast.SyscallRule} (h : rule.Writable) :
    WrittenRule rule (ruleTokens rule) := by
  refine .mk h.name h.args ?_
  cases hf : rule.filter with
  | none => exact .none
  | some f => exact .some (boolTokens_written (h.filter f hf))

theorem entryTokens_written {entry : Ast.PolicyEntry} (h : entry.Writable) :
    WrittenEntry entry (entryTokens entry) := by
  match entry, h with
  | .actionBlock ⟨action, []⟩, h => exact absurd rfl h.rules_ne
  | .actionBlock ⟨action, rule :: rules⟩, h =>
    have hrules := h.rules
    simp only [List.mem_cons, forall_eq_or_imp] at hrules
    have := WrittenEntry.actionBlock (rules.map fun rule => (rule, ruleTokens rule))
      (actionTokens_written h.action) (ruleTokens_written hrules.1)
      (by simpa using fun rule hr => ruleTokens_written (hrules.2 rule hr))
    simpa [entryTokens, rulesTokens, List.flatMap_map, Function.comp_def] using this
  | .useRef name span, h => exact .useRef h

section Items

/-- A name between quotes cannot hold a quote. -/
def NoQuote (s : List Char) : Prop := '"' ∉ s

theorem itemTokens_written {file : Ast.PolicyFile} (h : file.Writable NoQuote) :
    ∀ item ∈ file.items, WrittenItem item (itemTokens item) := by
  simp only [Ast.PolicyFile.items, List.mem_append, List.mem_map, Option.mem_toList,
    Option.map_eq_some_iff]
  rintro item (((⟨i, hi, rfl⟩ | ⟨d, hd, rfl⟩) | ⟨p, hp, rfl⟩) | ⟨u, hu, rfl⟩)
  · exact .include (h.includes i hi)
  · exact .define (h.defines d hd).1 (parens_written (h.defines d hd).2)
  · have hw := h.policies p hp
    have := WrittenItem.policy (p.entries.map fun e => (e, entryTokens e)) hw.name
      (by simpa using fun e he => entryTokens_written (hw.entries e he))
    simpa [itemTokens, List.flatMap_map, Function.comp_def] using this
  · have hw := h.useStmt u hu
    rcases u with ⟨_ | ⟨⟨name, span⟩, names⟩, action⟩
    · exact absurd rfl hw.policies_ne
    · exact .useStmt hw.policies (actionTokens_written hw.action)

theorem fileTokens_written {file : Ast.PolicyFile} (h : file.Writable NoQuote) :
    WrittenFile file (fileTokens file) := by
  refine ⟨file.items.map fun item => (item, itemTokens item), by simp [Function.comp_def], ?_, ?_⟩
  · simpa using itemTokens_written h
  · simp [fileTokens, List.flatMap_map]

end Items

end Pnut.Kafel
