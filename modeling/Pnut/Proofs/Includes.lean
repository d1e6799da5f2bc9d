import Pnut.Proofs.Panics

/-!
# Which includes are circular

`parse_with_includes` remembers the file names of the directives it is inside of, and rejects a
directive whose file name is among them before it is resolved. What the names mean is the
resolver's affair: the file of a directive is the name the resolver gives it. The two agree exactly
when no file is reached under two spellings and no spelling reaches two files on one chain.
-/

namespace Pnut.Kafel

open Pnut.Kafel.Parser

/-- A directive the run comes to, below the directives it is nested in, the innermost first: their
file names and the names of their files. -/
structure Visit where
  ancestors : List (String × String)
  parent : Option String
  filename : String
  span : Span
  deriving DecidableEq

namespace Visit

variable (options : CompileOptions) (v : Visit)

/-- The file name is that of a directive it is nested in. -/
def Caught : Prop := v.filename ∈ v.ancestors.map Prod.fst

/-- The resolver gives a file it is nested in. -/
def OnChain : Prop :=
  ∃ resolver result, options.includeResolver = some resolver ∧
    resolver v.filename v.parent = .ok result ∧
    result.canonicalName.getD v.filename ∈ v.ancestors.map Prod.snd

/-- The resolver itself answers that the include is circular. -/
def Disowned : Prop :=
  ∃ resolver filename span, options.includeResolver = some resolver ∧
    resolver v.filename v.parent = .error (.circularInclude filename span)

variable {options v}

theorem Disowned.not_onChain (h : v.Disowned options) : ¬ v.OnChain options := by
  rintro ⟨resolver, result, hresolver, hresult, -⟩
  obtain ⟨_, _, _, hresolver', herr⟩ := h
  obtain rfl := Option.some.inj (hresolver.symm.trans hresolver')
  simp [hresult] at herr

end Visit

/-- The error of a circular include. -/
def circular {α : Type} (filename : String) (span : Option Span) : Result α :=
  errWith (.circularInclude filename span)

section Runs

variable (b : Build) (pest : Pest) (options : CompileOptions)

/-- The directives that `includeLoop` comes to; `parse` parses an included file and `visits` are
the directives it comes to there. -/
def visitLoop (ancestors : List (String × String)) (parent : Option String)
    (parse : List Char → List String → Option String → Result (Ast.PolicyFile × List String))
    (visits : List Char → List (String × String) → Option String → List Visit) :
    List Ast.Include → List Visit
  | [] => []
  | ⟨filename, span⟩ :: includes =>
    ⟨ancestors, parent, filename, span⟩ ::
      if filename ∈ ancestors.map Prod.fst then []
      else
        match options.includeResolver with
        | none => []
        | some resolver =>
          match resolver filename parent with
          | .error _ => []
          | .ok result =>
            let name := result.canonicalName.getD filename
            let chain := (filename, name) :: ancestors
            visits result.contents chain (some name) ++
              match parse result.contents (chain.map Prod.fst) (some name) with
              | .error _ => []
              | .ok _ => visitLoop ancestors parent parse visits includes

/-- The directives that `parse_with_includes` comes to, when the file stands inside `ancestors`. -/
def visited : ℕ → List Char → List (String × String) → Option String → List Visit
  | 0, _, _, _ => []
  | left + 1, input, ancestors, parent =>
    match parseText b pest input with
    | .error _ => []
    | .ok file =>
      visitLoop options ancestors parent (parseWithIncludes b pest options left) (visited left)
        file.includes

mutual

/-- The defines and policies of a text: those of the file, then those of its includes in order. -/
inductive Expands : Option String → List Char → List (String × Ast.Expr) → List Ast.Policy → Prop
  | intro {parent : Option String} {input : List Char} {file : Ast.PolicyFile}
      {defines : List (String × Ast.Expr)} {policies : List Ast.Policy}
      (h : parseText b pest input = .ok file)
      (hincludes : ExpandsAll parent file.includes defines policies) :
      Expands parent input (file.defines ++ defines) (file.policies ++ policies)

inductive ExpandsAll :
    Option String → List Ast.Include → List (String × Ast.Expr) → List Ast.Policy → Prop
  | nil {parent : Option String} : ExpandsAll parent [] [] []
  | cons {parent : Option String} {filename : String} {span : Span} {includes : List Ast.Include}
      {resolver : IncludeResolver} {result : IncludeResult}
      {defines defines' : List (String × Ast.Expr)} {policies policies' : List Ast.Policy}
      (hresolver : options.includeResolver = some resolver)
      (hresult : resolver filename parent = .ok result)
      (h : Expands (some (result.canonicalName.getD filename)) result.contents defines policies)
      (hincludes : ExpandsAll parent includes defines' policies') :
      ExpandsAll parent (⟨filename, span⟩ :: includes) (defines ++ defines') (policies ++ policies')

end

/-- What a run on a file inside `ancestors` does, and the directives it comes to. -/
structure Tracked (ancestors : List (String × String)) (left : ℕ)
    (run : Result (Ast.PolicyFile × List String)) (visits : List Visit) : Prop where
  restored : ∀ file seen, run = .ok (file, seen) → seen = ancestors.map Prod.fst
  stopped : ∀ filename span, run = circular filename span →
    ∃ v, visits.getLast? = some v ∧ (v.Caught ∨ v.Disowned options)
  caught : ∀ v ∈ visits, v.Caught → visits.getLast? = some v ∧ run = circular v.filename v.span
  disowned : ∀ v ∈ visits, ¬ v.Caught → v.Disowned options →
    visits.getLast? = some v ∧ ∃ filename span, run = circular filename span
  nested : ∀ v ∈ visits, v.ancestors.length < ancestors.length + left

end Runs

section Tracked

variable {b : Build} {pest : Pest} {options : CompileOptions}
  {ancestors chain : List (String × String)} {left : ℕ}
  {run run' : Result (Ast.PolicyFile × List String)} {v : Visit} {vs vs' : List Visit}

@[simp] theorem circular_ne_ok {α : Type} {filename : String} {span : Option Span} {a : α} :
    circular filename span ≠ .ok a := errWith_ne_ok

/-- The run ends at the directive. -/
theorem tracked_single {e : Fault} (hv : v.ancestors = ancestors) (hrun : run = .error e)
    (hstopped : ∀ filename span, run = circular filename span → v.Caught ∨ v.Disowned options)
    (hcaught : v.Caught → run = circular v.filename v.span)
    (hdisowned : ¬ v.Caught → v.Disowned options → ∃ filename span, run = circular filename span) :
    Tracked options ancestors (left + 1) run [v] where
  restored file seen h := by simp [hrun] at h
  stopped filename span h := ⟨v, rfl, hstopped filename span h⟩
  caught w hw hc := by
    obtain rfl := List.mem_singleton.1 hw
    exact ⟨rfl, hcaught hc⟩
  disowned w hw hc hd := by
    obtain rfl := List.mem_singleton.1 hw
    exact ⟨rfl, hdisowned hc hd⟩
  nested w hw := by
    obtain rfl := List.mem_singleton.1 hw
    rw [hv]
    omega

theorem getLast?_cons_of_some {v w : Visit} (h : vs.getLast? = some w) :
    (v :: vs).getLast? = some w := by
  rw [List.getLast?_cons, h]
  rfl

/-- The run ends inside the included file. -/
theorem Tracked.below {e : Fault} (h : Tracked options chain left run vs)
    (hchain : chain.length = ancestors.length + 1) (hrun : run = .error e)
    (hv : v.ancestors = ancestors) (hcaught : ¬ v.Caught) (hdisowned : ¬ v.Disowned options) :
    Tracked options ancestors (left + 1) run (v :: vs) where
  restored file seen h := by simp [hrun] at h
  stopped filename span hstop := by
    obtain ⟨w, hw, hwhy⟩ := h.stopped filename span hstop
    exact ⟨w, getLast?_cons_of_some hw, hwhy⟩
  caught w hw hc := by
    rcases List.mem_cons.1 hw with rfl | hw
    · exact absurd hc hcaught
    · exact (h.caught w hw hc).imp getLast?_cons_of_some id
  disowned w hw hc hd := by
    rcases List.mem_cons.1 hw with rfl | hw
    · exact absurd hd hdisowned
    · exact (h.disowned w hw hc hd).imp getLast?_cons_of_some id
  nested w hw := by
    rcases List.mem_cons.1 hw with rfl | hw
    · rw [hv]
      omega
    · have := h.nested w hw
      omega

theorem getLast?_append_of_some {w : Visit} (h : vs'.getLast? = some w) :
    (v :: (vs ++ vs')).getLast? = some w := by
  refine getLast?_cons_of_some ?_
  rw [List.getLast?_append, h]
  rfl

/-- The included file is parsed, and the run goes on behind the directive. -/
theorem Tracked.next {out : Ast.PolicyFile × List String} (h : Tracked options chain left run vs)
    (h' : Tracked options ancestors (left + 1) run' vs')
    (hchain : chain.length = ancestors.length + 1) (hrun : run = .ok out)
    (hv : v.ancestors = ancestors) (hcaught : ¬ v.Caught) (hdisowned : ¬ v.Disowned options) :
    Tracked options ancestors (left + 1) run' (v :: (vs ++ vs')) where
  restored := h'.restored
  stopped filename span hstop := by
    obtain ⟨w, hw, hwhy⟩ := h'.stopped filename span hstop
    exact ⟨w, getLast?_append_of_some hw, hwhy⟩
  caught w hw hc := by
    rcases List.mem_cons.1 hw with rfl | hw
    · exact absurd hc hcaught
    rcases List.mem_append.1 hw with hw | hw
    · have := (h.caught w hw hc).2
      simp [hrun, circular, errWith] at this
    · exact (h'.caught w hw hc).imp getLast?_append_of_some id
  disowned w hw hc hd := by
    rcases List.mem_cons.1 hw with rfl | hw
    · exact absurd hd hdisowned
    rcases List.mem_append.1 hw with hw | hw
    · obtain ⟨filename, span, this⟩ := (h.disowned w hw hc hd).2
      simp [hrun, circular, errWith] at this
    · exact (h'.disowned w hw hc hd).imp getLast?_append_of_some id
  nested w hw := by
    rcases List.mem_cons.1 hw with rfl | hw
    · rw [hv]
      omega
    rcases List.mem_append.1 hw with hw | hw
    · have := h.nested w hw
      omega
    · exact h'.nested w hw

theorem seen_filter {filename : String} {seen : List String} (h : filename ∉ seen) :
    (filename :: seen).filter (· ≠ filename) = seen := by
  rw [List.filter_cons_of_neg (by simp), List.filter_eq_self]
  intro name hname
  have : name ≠ filename := fun heq => h (heq ▸ hname)
  simpa using this

theorem visitLoop_tracked {parent : Option String}
    {parse : List Char → List String → Option String → Result (Ast.PolicyFile × List String)}
    {visits : List Char → List (String × String) → Option String → List Visit}
    (hdeeper : ∀ input chain parent,
      Tracked options chain left (parse input (chain.map Prod.fst) parent)
        (visits input chain parent)) :
    ∀ (includes : List Ast.Include) (file : Ast.PolicyFile), Tracked options ancestors (left + 1)
      (includeLoop options parent (some parse) file (ancestors.map Prod.fst) includes)
      (visitLoop options ancestors parent parse visits includes)
  | [], file => by
    unfold includeLoop visitLoop
    refine ⟨?_, ?_, by simp, by simp, by simp⟩
    · rintro _ _ ⟨⟩
      rfl
    · rintro _ _ ⟨⟩
  | ⟨filename, span⟩ :: includes, file => by
    unfold includeLoop visitLoop
    simp only []
    by_cases hc : filename ∈ ancestors.map Prod.fst
    · rw [if_pos hc, if_pos hc]
      exact tracked_single rfl rfl (fun _ _ _ => .inl hc) (fun _ => rfl) fun h => absurd hc h
    rw [if_neg hc, if_neg hc]
    rcases hresolver : options.includeResolver with _ | resolver
    · refine tracked_single rfl rfl (by rintro _ _ ⟨⟩) (fun h => absurd h hc) ?_
      rintro _ ⟨resolver, _, _, hsome, -⟩
      simp [hresolver] at hsome
    simp only []
    rcases hresult : resolver filename parent with e | result
    · have hdisowned : Visit.Disowned options ⟨ancestors, parent, filename, span⟩ ↔
          ∃ filename span, e = .circularInclude filename span := by
        constructor
        · rintro ⟨_, filename', span', hsome, herr⟩
          obtain rfl := Option.some.inj (hresolver.symm.trans hsome)
          exact ⟨filename', span', Except.error.inj (hresult.symm.trans herr)⟩
        · rintro ⟨filename', span', rfl⟩
          exact ⟨resolver, filename', span', hresolver, hresult⟩
      split
      · rename_i heq
        obtain rfl := Except.error.inj heq
        refine tracked_single rfl rfl (by rintro _ _ ⟨⟩) (fun h => absurd h hc) fun _ hd => ?_
        simp [hdisowned] at hd
      · rename_i heq
        obtain rfl := Except.error.inj heq
        refine tracked_single rfl rfl (fun f s h => .inr (hdisowned.2 ⟨f, s, ?_⟩))
          (fun h => absurd h hc) fun _ hd => ?_
        · simpa [circular, errWith] using h
        · obtain ⟨f, s, rfl⟩ := hdisowned.1 hd
          exact ⟨f, s, rfl⟩
      · rename_i heq
        cases heq
    simp only []
    have hdisowned : ¬ Visit.Disowned options ⟨ancestors, parent, filename, span⟩ := by
      rintro ⟨_, _, _, hsome, herr⟩
      obtain rfl := Option.some.inj (hresolver.symm.trans hsome)
      simp [hresult] at herr
    have h := hdeeper result.contents ((filename, result.canonicalName.getD filename) :: ancestors)
      (some (result.canonicalName.getD filename))
    simp only [List.map_cons] at h ⊢
    rcases hrun : parse result.contents (filename :: ancestors.map Prod.fst)
        (some (result.canonicalName.getD filename)) with e | ⟨included, seen⟩
    · rw [hrun] at h
      rw [List.append_nil]
      exact h.below rfl rfl rfl hc hdisowned
    · rw [hrun] at h
      have hseen : seen = filename :: ancestors.map Prod.fst := h.restored included seen rfl
      simp only [ok_bind]
      rw [hseen, seen_filter hc]
      exact h.next (visitLoop_tracked hdeeper includes _) rfl rfl rfl hc hdisowned

theorem parseText_of_error {input : List Char} {err : PestError} (h : pest input = .error err) :
    parseText b pest input = pestToParseError b err >>= errWith := by
  unfold parseText Parser.parsePolicy
  rw [h]
  rfl

theorem parseText_of_ok {input : List Char} {tokens : List Tree}
    (h : pest input = .ok tokens) : parseText b pest input = buildFile tokens := by
  unfold parseText Parser.parsePolicy
  simp only [h]
  rcases buildFile tokens <;> rfl

/-- The parser's own errors are not those of an include. -/
theorem parseText_ne_circular (hpest : pest.Conforms) {input : List Char} {filename : String}
    {span : Option Span} : parseText b pest input ≠ circular filename span := by
  rcases hp : pest input with err | tokens
  · rw [parseText_of_error hp]
    unfold pestToParseError
    rcases err.location with p | ⟨start, stop⟩
    · simp only [addU32]
      split_ifs <;> rintro ⟨⟩
    · rintro ⟨⟩
  · rw [parseText_of_ok hp]
    obtain ⟨t, ht⟩ := hpest input tokens hp
    have hbuilt := buildFile_built ht
      (show Quotes (fun _ => True) tokens from fun _ _ _ _ _ => trivial)
    by_cases hF : InRange tokens
    · obtain ⟨file, hfile, -⟩ := hbuilt.ok hF
      rw [hfile]
      rintro ⟨⟩
    · obtain ⟨m, hm⟩ := hbuilt.panics hF
      rw [hm]
      rintro ⟨⟩

/-- A file that does not parse has no directive. -/
theorem tracked_error (hpest : pest.Conforms) {input : List Char} {e : Fault}
    (hfile : parseText b pest input = .error e) (hrun : run = .error e) :
    Tracked options ancestors left run [] where
  restored file seen h := by simp [hrun] at h
  stopped filename span h := by
    obtain rfl := Except.error.inj (hrun.symm.trans h)
    exact absurd hfile (parseText_ne_circular hpest)
  caught := by simp
  disowned := by simp
  nested := by simp

theorem visited_tracked (hpest : pest.Conforms) (left : ℕ) (input : List Char)
    (ancestors : List (String × String)) (parent : Option String) :
    Tracked options ancestors left
      (parseWithIncludes b pest options left input (ancestors.map Prod.fst) parent)
      (visited b pest options left input ancestors parent) := by
  induction left generalizing input ancestors parent with
  | zero =>
    unfold parseWithIncludes visited
    rcases hfile : parseText b pest input with e | file
    · exact tracked_error hpest hfile rfl
    · simp only [ok_bind]
      rcases file.includes with _ | ⟨⟨filename, span⟩, includes⟩
      · unfold includeLoop
        refine ⟨?_, by rintro _ _ ⟨⟩, by simp, by simp, by simp⟩
        rintro _ _ ⟨⟩
        rfl
      · unfold includeLoop
        exact ⟨by rintro _ _ ⟨⟩, by rintro _ _ ⟨⟩, by simp, by simp, by simp⟩
  | succ left ih =>
    unfold parseWithIncludes visited
    rcases hfile : parseText b pest input with e | file
    · exact tracked_error hpest hfile rfl
    · simp only [ok_bind]
      exact visitLoop_tracked ih _ _

end Tracked

/-! ## What the merged file holds -/

section Merged

variable {b : Build} {pest : Pest} {options : CompileOptions}

theorem Expands.inv {parent : Option String} {input : List Char}
    {defines : List (String × Ast.Expr)} {policies : List Ast.Policy}
    (h : Expands b pest options parent input defines policies) :
    ∃ file defines' policies', parseText b pest input = .ok file ∧
      ExpandsAll b pest options parent file.includes defines' policies' ∧
      defines = file.defines ++ defines' ∧ policies = file.policies ++ policies' := by
  cases h with
  | intro h hall => exact ⟨_, _, _, h, hall, rfl, rfl⟩

theorem expandsAll_nil {parent : Option String} {defines : List (String × Ast.Expr)}
    {policies : List Ast.Policy} (h : ExpandsAll b pest options parent [] defines policies) :
    defines = [] ∧ policies = [] := by
  cases h
  exact ⟨rfl, rfl⟩

theorem includeLoop_expands {parent : Option String}
    {parse : List Char → List String → Option String → Result (Ast.PolicyFile × List String)}
    (hparse : ∀ input seen parent file seen', parse input seen parent = .ok (file, seen') →
      Expands b pest options parent input file.defines file.policies) :
    ∀ {includes : List Ast.Include} {file file' : Ast.PolicyFile} {seen seen' : List String},
    includeLoop options parent (some parse) file seen includes = .ok (file', seen') →
    ∃ defines policies, ExpandsAll b pest options parent includes defines policies ∧
      file'.defines = file.defines ++ defines ∧ file'.policies = file.policies ++ policies
  | [], file, file', seen, seen', h => by
    obtain ⟨rfl, rfl⟩ : file = file' ∧ seen = seen' := by
      simpa [includeLoop, pure, Except.pure] using h
    exact ⟨[], [], .nil, by simp, by simp⟩
  | ⟨filename, span⟩ :: includes, file, file', seen, seen', h => by
    unfold includeLoop at h
    simp only [] at h
    split_ifs at h
    · simp at h
    rcases hresolver : options.includeResolver with _ | resolver
    · simp [hresolver] at h
    simp only [hresolver] at h
    rcases hresult : resolver filename parent with e | result
    · rw [hresult] at h
      split at h
      · simp at h
      · simp at h
      · rename_i heq
        cases heq
    simp only [hresult, bind_eq_ok] at h
    obtain ⟨⟨included, seen₁⟩, hincluded, h⟩ := h
    obtain ⟨defines, policies, hall, hdefines, hpolicies⟩ := includeLoop_expands hparse h
    refine ⟨_, _, .cons hresolver hresult (hparse _ _ _ _ _ hincluded) hall, ?_, ?_⟩
    · rw [hdefines]
      exact List.append_assoc ..
    · rw [hpolicies]
      exact List.append_assoc ..

theorem parseWithIncludes_expands {left : ℕ} {input : List Char} {seen seen' : List String}
    {parent : Option String} {file : Ast.PolicyFile}
    (h : parseWithIncludes b pest options left input seen parent = .ok (file, seen')) :
    ∃ own defines policies, parseText b pest input = .ok own ∧
      ExpandsAll b pest options parent own.includes defines policies ∧
      file.defines = own.defines ++ defines ∧ file.policies = own.policies ++ policies := by
  induction left generalizing input seen seen' parent file with
  | zero =>
    simp only [parseWithIncludes, bind_eq_ok] at h
    obtain ⟨own, hown, h⟩ := h
    rcases hincludes : own.includes with _ | ⟨inc, includes⟩
    · rw [hincludes] at h
      obtain ⟨rfl, -⟩ := Prod.mk.inj (Except.ok.inj h)
      exact ⟨own, [], [], hown, hincludes ▸ .nil, by simp, by simp⟩
    · rw [hincludes] at h
      simp [includeLoop] at h
  | succ left ih =>
    simp only [parseWithIncludes, bind_eq_ok] at h
    obtain ⟨own, hown, h⟩ := h
    obtain ⟨defines, policies, hall, hdefines, hpolicies⟩ := includeLoop_expands
      (fun input seen parent file seen' hok => by
        obtain ⟨own, defines, policies, hown, hall, hdefines, hpolicies⟩ := ih hok
        rw [hdefines, hpolicies]
        exact .intro hown hall) h
    exact ⟨own, defines, policies, hown, hall, hdefines, hpolicies⟩

end Merged

/-! ## The includes of a run -/

section Run

variable (b : Build) (pest : Pest) (options : CompileOptions) (left : ℕ) (input : List Char)
  (ancestors : List (String × String)) (parent : Option String)

/-- The run of `parse_with_includes` on a text whose file stands inside `ancestors`. -/
def includeRun : Result (Ast.PolicyFile × List String) :=
  parseWithIncludes b pest options left input (ancestors.map Prod.fst) parent

/-- The directives of the run. -/
def includeVisits : List Visit := visited b pest options left input ancestors parent

/-- Include expansion: nested no deeper than the levels that are left; a directive whose file it is
nested in ends the run as circular, and no other does; a run that succeeds has merged the includes
in order and gives the set of names back. -/
structure ExpandsIncludes : Prop where
  nested : ∀ v ∈ includeVisits b pest options left input ancestors parent,
    v.ancestors.length < ancestors.length + left
  rejected : ∀ v ∈ includeVisits b pest options left input ancestors parent, v.OnChain options →
    (includeVisits b pest options left input ancestors parent).getLast? = some v ∧
      includeRun b pest options left input ancestors parent = circular v.filename v.span
  onlyRejected : ∀ filename span,
    includeRun b pest options left input ancestors parent = circular filename span →
    ∃ v, (includeVisits b pest options left input ancestors parent).getLast? = some v ∧
      v.OnChain options
  merged : ∀ file seen, includeRun b pest options left input ancestors parent = .ok (file, seen) →
    Expands b pest options parent input file.defines file.policies ∧ seen = ancestors.map Prod.fst

/-- File names and files agree on the chains of the run, and the resolver leaves it to the parser
to call an include circular. -/
def NamesAgree : Prop :=
  ∀ v ∈ includeVisits b pest options left input ancestors parent,
    (v.Caught ↔ v.OnChain options) ∧ ¬ v.Disowned options

end Run

theorem expandsIncludes_iff {b : Build} {pest : Pest} (hpest : pest.Conforms)
    (options : CompileOptions) (left : ℕ) (input : List Char) (ancestors : List (String × String))
    (parent : Option String) :
    ExpandsIncludes b pest options left input ancestors parent ↔
      NamesAgree b pest options left input ancestors parent := by
  have h : Tracked options ancestors left (includeRun b pest options left input ancestors parent)
    (includeVisits b pest options left input ancestors parent) := visited_tracked hpest ..
  constructor
  · intro hexp v hv
    have hlast : ∀ {filename span}, (includeVisits b pest options left input ancestors
        parent).getLast? = some v →
        includeRun b pest options left input ancestors parent = circular filename span →
        v.OnChain options := by
      intro filename span hlast hrun
      obtain ⟨w, hw, hchain⟩ := hexp.onlyRejected filename span hrun
      exact Option.some.inj (hlast.symm.trans hw) ▸ hchain
    have hcaught : v.Caught → v.OnChain options := fun hc =>
      hlast (h.caught v hv hc).1 (h.caught v hv hc).2
    refine ⟨⟨hcaught, fun hchain => ?_⟩, fun hd => ?_⟩
    · obtain ⟨hv', hrun⟩ := hexp.rejected v hv hchain
      obtain ⟨w, hw, hwhy⟩ := h.stopped _ _ hrun
      obtain rfl := Option.some.inj (hv'.symm.trans hw)
      exact hwhy.resolve_right fun hd => hd.not_onChain hchain
    · by_cases hc : v.Caught
      · exact hd.not_onChain (hcaught hc)
      · obtain ⟨hv', filename, span, hrun⟩ := h.disowned v hv hc hd
        exact hd.not_onChain (hlast hv' hrun)
  · intro hagree
    refine ⟨h.nested, fun v hv hchain => h.caught v hv ((hagree v hv).1.2 hchain), ?_, ?_⟩
    · intro filename span hrun
      obtain ⟨v, hv, hwhy⟩ := h.stopped filename span hrun
      have hmem := List.mem_of_getLast? hv
      exact ⟨v, hv, (hagree v hmem).1.1 (hwhy.resolve_right (hagree v hmem).2)⟩
    · intro file seen hrun
      refine ⟨?_, h.restored file seen hrun⟩
      obtain ⟨own, defines, policies, hown, hall, hdefines, hpolicies⟩ :=
        parseWithIncludes_expands hrun
      rw [hdefines, hpolicies]
      exact .intro hown hall

/-- Two files of one name in different directories. -/
def nestedResolver : IncludeResolver := fun filename parent =>
  match filename, parent with
  | "c", none => .ok ⟨"#include \"s/m\"".toList, some "/c"⟩
  | "s/m", _ => .ok ⟨"#include \"c\"".toList, some "/s/m"⟩
  | "c", _ => .ok ⟨"#define A 1".toList, some "/s/c"⟩
  | _, _ => .error (.includeNotFound filename none)

def nestedOptions : CompileOptions := { includeResolver := some nestedResolver }

def nestedInput : List Char := "#include \"c\"".toList

/-- The inner file is taken for the outer one. -/
theorem nestedInput_not_expandsIncludes :
    includeRun .release (Pest.interpreter silentError) nestedOptions
      nestedOptions.maxIncludeDepth nestedInput [] none = circular "c" (some ⟨0, 12⟩) ∧
    ¬ ExpandsIncludes .release (Pest.interpreter silentError) nestedOptions
      nestedOptions.maxIncludeDepth nestedInput [] none := by
  have hrun : includeRun .release (Pest.interpreter silentError) nestedOptions
      nestedOptions.maxIncludeDepth nestedInput [] none = circular "c" (some ⟨0, 12⟩) := by
    rfl
  refine ⟨hrun, fun h => ?_⟩
  obtain ⟨v, hv, resolver, result, hresolver, hresult, hmem⟩ := h.onlyRejected _ _ hrun
  have hlast : (includeVisits .release (Pest.interpreter silentError) nestedOptions
      nestedOptions.maxIncludeDepth nestedInput [] none).getLast? =
      some ⟨[("s/m", "/s/m"), ("c", "/c")], some "/s/m", "c", ⟨0, 12⟩⟩ := by
    decide +kernel
  obtain rfl := Option.some.inj (hlast.symm.trans hv)
  obtain rfl := Option.some.inj hresolver
  obtain rfl := Except.ok.inj hresult
  revert hmem
  decide

theorem nestedInput_expandsIncludes_iff :
    ExpandsIncludes .release (Pest.interpreter silentError) nestedOptions
      nestedOptions.maxIncludeDepth nestedInput [] none ↔
    NamesAgree .release (Pest.interpreter silentError) nestedOptions
      nestedOptions.maxIncludeDepth nestedInput [] none :=
  expandsIncludes_iff (Pest.interpreter_faithful _).conforms ..

end Pnut.Kafel
