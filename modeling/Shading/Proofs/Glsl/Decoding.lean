import Shading.Proofs.Glsl.Layout
import Shading.Proofs.Glsl.Unambiguous
import Shading.Proofs.History.Caches

/-!
# Programs from their source texts

An emitter writes the listing of a program: the texts of its outputs are those of their expressions,
whatever the emitter has kept (`Glsl.exists_listing`). The text of an expression whose variables
have identifiers for names is on one line, so the listing can be read from the source text. A
listing has the inputs and the uniforms, and for every output it shows the text of its expression
(`Glsl.Lists.exists_text`) and nothing else (`Glsl.Lists.exists_expr`). Hence programs of one stage
with the same source text have all of these in common.
-/

namespace Shading

/-! ### Texts on one line -/

namespace Glsl.Phrase

variable {operand left right : Phrase}

/-- The end of a call has no line breaks but those of its texts. -/
theorem break_notMem_closing {text : List Char} {texts : List (List Char)} :
    '\n' ∉ text ++ closing texts ↔ '\n' ∉ text ∧ ∀ other ∈ texts, '\n' ∉ other := by
  induction texts generalizing text with
  | nil => simp [closing]
  | cons first rest ih =>
      rw [closing, List.mem_append, not_or, List.forall_mem_cons, ← ih]
      simp

/-- A call has no line breaks but those of its arguments. -/
theorem break_notMem_call {callee : Callee} {first : Phrase} {rest : List Phrase} :
    '\n' ∉ (call callee first rest).chars ↔
      '\n' ∉ first.chars ∧ ∀ phrase ∈ rest, '\n' ∉ phrase.chars := by
  have word : '\n' ∉ callee.word.toList := oneLine_of_isIdentifier callee.isIdentifier_word
  rw [chars, List.mem_append, not_or, and_iff_right word, List.mem_cons, not_or,
    and_iff_right (by decide), break_notMem_closing, texts_eq_map, List.forall_mem_map]

/-- A number has no line breaks. -/
theorem break_notMem_number (value : Binary64) : '\n' ∉ (number value).chars := by
  intro member
  cases isNumeralChar_of_mem member

/-- A constant has no line breaks. -/
theorem break_notMem_ofConstant (type : ValueType) (components : List Binary64) :
    '\n' ∉ (ofConstant type components).chars := by
  unfold ofConstant
  dsimp only
  split
  · exact break_notMem_number _
  · refine break_notMem_call.mpr ⟨break_notMem_number _, fun phrase member => ?_⟩
    obtain ⟨value, -, rfl⟩ := List.mem_map.mp member
    exact break_notMem_number value

/-- A unary operator adds no line break. -/
theorem break_notMem_ofUnary (op : UnaryOp) (inside : '\n' ∉ operand.chars) :
    '\n' ∉ (ofUnary op operand).chars := by
  cases op with
  | neg =>
      rw [ofUnary, chars, apart]
      split <;> simpa using inside
  | abs | length => exact break_notMem_call.mpr ⟨inside, by simp⟩

/-- A binary operator adds no line break. -/
theorem break_notMem_ofBinary (op : BinaryOp) (before : '\n' ∉ left.chars)
    (after : '\n' ∉ right.chars) : '\n' ∉ (ofBinary op left right).chars := by
  cases op with
  | add | sub | mul | div =>
      rw [ofBinary, chars]
      simpa using And.intro before after
  | mod | dot | cross => exact break_notMem_call.mpr ⟨before, by simpa using after⟩

end Glsl.Phrase

/-- An expression with identifiers for names has no line breaks. -/
theorem Tree.break_notMem_phrase {tree : Tree} (identified : tree.Identified) :
    '\n' ∉ tree.phrase.chars := by
  induction tree with
  | constant type components => exact Glsl.Phrase.break_notMem_ofConstant type components
  | var type name =>
      rw [phrase, Glsl.Phrase.chars]
      exact Glsl.oneLine_of_isIdentifier (identified (type, name) (var_mem_vars type name))
  | unary op operand ih =>
      exact Glsl.Phrase.break_notMem_ofUnary op (ih (identified.child List.mem_cons_self))
  | binary lhs op rhs ihLeft ihRight =>
      exact Glsl.Phrase.break_notMem_ofBinary op (ihLeft (identified.child List.mem_cons_self))
        (ihRight (identified.child (List.mem_cons_of_mem _ List.mem_cons_self)))
  | qualified kind inner ih => exact ih (identified.child List.mem_cons_self)

variable {pool : Pool} {options : Glsl.EmitOptions} {program left right : Program}
  {cache next : Cache String} {root expr : NodeId} {name text : String}

/-- Only expressions are printed. -/
theorem Pool.WellFormed.exists_tree?_of_print (wf : pool.WellFormed)
    (present : pool.contains root = true) (printed : Glsl.print pool root = .ok text) :
    ∃ tree, pool.tree? root = some tree := by
  rw [Glsl.print, Interpretation.result_eq _ wf present, Pool.interpret] at printed
  cases unfolded : pool.tree? root with
  | some tree => exact ⟨tree, rfl⟩
  | none =>
      rw [unfolded] at printed
      cases printed

/-- The text of an expression whose variables have identifiers for names is on one line. -/
theorem Pool.WellFormed.oneLine_of_print (wf : pool.WellFormed)
    (present : pool.contains root = true) (printed : Glsl.print pool root = .ok text)
    (identifiers : ∀ id type name, pool.Below root id → pool.node? id = some (.var type name) →
      Glsl.isIdentifier name = true) : Glsl.OneLine text := by
  obtain ⟨tree, unfolded⟩ := wf.exists_tree?_of_print present printed
  obtain ⟨-, sameText⟩ := (wf.print_eq_ok_iff unfolded).mp printed
  rw [Glsl.OneLine, sameText]
  refine Tree.break_notMem_phrase ?_
  rintro ⟨type, name⟩ member
  obtain ⟨id, below, found⟩ := (wf.mem_vars_iff unfolded).mp member
  exact identifiers id type name below found

/-! ### Listings of programs -/

namespace Glsl

/-- The output is not built-in. -/
def EmitOptions.isPlain (options : EmitOptions) (stage : Stage) (output : String × NodeId) : Bool :=
  !(options.builtin? stage).any (·.output == output.1)

/-- What is written for an output of a program: its name, with the type and the text of its
expression. -/
structure Writes (pool : Pool) (output : String × NodeId) (written : WrittenOutput) : Prop where
  name : written.entry.name = output.1
  type : pool.typeOf output.2 = .ok written.entry.type
  text : print pool output.2 = .ok written.text

/-- What is written for a program. -/
structure Lists (pool : Pool) (options : EmitOptions) (program : Program) (listing : Listing) :
    Prop where
  inputs : listing.inputs = program.inputs
  uniforms : listing.uniforms = program.uniforms
  outputs : List.Forall₂ (Writes pool)
    (program.outputs.entries.filter (options.isPlain program.stage)) listing.outputs
  builtin : listing.last.map Prod.fst = options.builtin? program.stage
  last : ∀ written ∈ listing.last, ∃ expr,
    program.outputs.get? written.1.output = some expr ∧ print pool expr = .ok written.2

/-- A run from a cache that is right gives the text of the expression and keeps the cache right. -/
theorem print_of_run (wf : pool.WellFormed) (serves : cache.Serves textual pool)
    (present : pool.contains root = true) (ran : textual.run pool root cache = .ok text next) :
    print pool root = .ok text ∧ next.Serves textual pool := by
  obtain ⟨-, -, answered⟩ := Interpretation.run_spec wf serves root
  have kept := (textual.transparent_run wf root).keeps cache serves
  rw [stateLeftBy_of_ok ran] at kept
  rw [print, textual.result_eq wf present, ← answered present, answerOf, ran]
  exact ⟨rfl, kept⟩

/-- The lines of outputs that are written in order. -/
def outputsLines (dialect : Dialect) (stage : Stage) (outputs : List WrittenOutput) :
    SourceLines where
  declarations := (outputs.flatMap (WrittenOutput.declarations dialect stage)).map Declaration.line
  body := outputs.map (WrittenOutput.statement dialect stage)

/-- Outputs are written from the first one on. -/
theorem outputsLines_cons (dialect : Dialect) (stage : Stage) (first : WrittenOutput)
    (rest : List WrittenOutput) :
    outputsLines dialect stage (first :: rest) =
      (SourceLines.ofOutput dialect stage first.entry.type first.entry.name first.text).append
        (outputsLines dialect stage rest) := by
  rw [WrittenOutput.ofOutput_eq, outputsLines, List.flatMap_cons, List.map_append]
  rfl

/-- What is written for the outputs that are not built-in, one after the other. -/
theorem exists_outputs (wf : pool.WellFormed) {stage : Stage} {entries : List (String × NodeId)}
    {lines : SourceLines} (serves : cache.Serves textual pool)
    (present : ∀ entry ∈ entries, pool.contains entry.2 = true)
    (ran : outputLines options pool stage entries cache = .ok lines next) :
    next.Serves textual pool ∧
      ∃ outputs, List.Forall₂ (Writes pool) (entries.filter (options.isPlain stage)) outputs ∧
        lines = outputsLines options.dialect stage outputs := by
  -- Every text leaves another cache, and it has to be right for the texts that follow.
  induction entries generalizing cache lines with
  | nil =>
      cases ran
      exact ⟨serves, [], .nil, rfl⟩
  | cons first rest ih =>
      obtain ⟨name, expr⟩ := first
      rw [List.forall_mem_cons] at present
      rw [outputLines] at ran
      by_cases isBuiltin : (options.builtin? stage).any (·.output == name) = true
      · rw [if_pos isBuiltin] at ran
        rw [List.filter_cons_of_neg (by simpa [EmitOptions.isPlain] using isBuiltin)]
        exact ih serves present.2 ran
      · rw [if_neg isBuiltin] at ran
        rw [List.filter_cons_of_pos (by simpa [EmitOptions.isPlain] using isBuiltin)]
        obtain ⟨type, typed, ran⟩ := exists_of_ofExcept_bind_ok ran
        obtain ⟨text, middle, printed, ran⟩ := exists_of_bind_ok ran
        obtain ⟨others, last, ranRest, finished⟩ := exists_of_bind_ok ran
        cases finished
        obtain ⟨isText, servesMiddle⟩ := print_of_run wf serves present.1 printed
        obtain ⟨servesLast, outputs, written, rfl⟩ := ih servesMiddle present.2 ranRest
        refine ⟨servesLast, ⟨⟨name, type⟩, text⟩ :: outputs, ?_, ?_⟩
        · exact .cons ⟨rfl, typed, isText⟩ written
        · rw [outputsLines_cons]

/-- The built-in output is the one of the stage, with the expression of the program. -/
theorem builtin_of_builtinOutput {found : Option (Builtin × NodeId)}
    (isFound : builtinOutput options program = .ok found) :
    found.map Prod.fst = options.builtin? program.stage ∧
      ∀ output ∈ found, program.outputs.get? output.1.output = some output.2 := by
  unfold builtinOutput at isFound
  split at isFound
  next none =>
    cases isFound
    exact ⟨none.symm, by simp⟩
  next builtin isBuiltin =>
    split at isFound
    next expr isOutput =>
      cases isFound
      refine ⟨isBuiltin.symm, ?_⟩
      rintro _ ⟨⟩
      exact isOutput
    next => cases isFound

/-- The last statement writes the printed text of the built-in output, if there is one. -/
theorem exists_last (wf : pool.WellFormed) {found : Option (Builtin × NodeId)}
    {lines : SourceLines} (serves : cache.Serves textual pool)
    (present : ∀ output ∈ found, pool.contains output.2 = true)
    (ran : builtinLines pool found cache = .ok lines next) :
    ∃ last, Option.Rel (fun output written => output.1 = written.1 ∧
        print pool output.2 = .ok written.2) found last ∧
      lines = { declarations := [], body := lastStatements last } := by
  cases found with
  | none =>
      cases ran
      exact ⟨none, .none, rfl⟩
  | some output =>
      obtain ⟨builtin, expr⟩ := output
      obtain ⟨text, middle, printed, finished⟩ := exists_of_bind_ok ran
      cases finished
      exact ⟨some (builtin, text), .some ⟨rfl, (print_of_run wf serves (present _ rfl) printed).1⟩,
        rfl⟩

/-- The declared inputs come first, and then the uniforms. -/
theorem interfaceLines_eq (dialect : Dialect) (program : Program) :
    interfaceLines dialect program =
      (program.inputs.map (Declaration.mk (dialect.inputKeyword program.stage)) ++
        program.uniforms.map (Declaration.mk "uniform")).map Declaration.line := by
  simp [interfaceLines, Declaration.line, Function.comp_def]

/-- The source text of a program is that of its listing. -/
theorem exists_listing (wf : pool.WellFormed) (serves : cache.Serves textual pool)
    (present : ∀ expr ∈ program.outputs.values, pool.contains expr = true)
    (ran : emit options pool program cache = .ok text next) :
    ∃ listing, Lists pool options program listing ∧
      text = (listing.lines options.dialect program.stage).render options := by
  obtain ⟨found, isFound, ran⟩ := exists_of_ofExcept_bind_ok ran
  obtain ⟨lines, middle, ranOutputs, ran⟩ := exists_of_bind_ok ran
  obtain ⟨lastLines, left, ranLast, finished⟩ := exists_of_bind_ok ran
  cases finished
  obtain ⟨isBuiltin, isOutput⟩ := builtin_of_builtinOutput isFound
  obtain ⟨servesMiddle, outputs, written, rfl⟩ := exists_outputs wf serves
    (fun entry member => present entry.2 (List.mem_map_of_mem member)) ranOutputs
  obtain ⟨last, related, rfl⟩ := exists_last wf servesMiddle
    (fun output member => present output.2 (output_of_builtinOutput isFound output member)) ranLast
  refine ⟨⟨program.inputs, program.uniforms, outputs, last⟩, ⟨rfl, rfl, written, ?_, ?_⟩, ?_⟩
  · rw [← isBuiltin]
    cases related with
    | none => rfl
    | some same => exact congrArg some same.1.symm
  · rintro written isLast
    cases related with
    | none => cases isLast
    | some same =>
        cases isLast
        exact ⟨_, same.1 ▸ isOutput _ rfl, same.2⟩
  · rw [interfaceLines_eq]
    simp [Listing.lines, Listing.declarations, SourceLines.append, outputsLines]

/-! ### Reading listings -/

/-- The listing shows a text for the output of a name. -/
def Listing.Shows (listing : Listing) (name text : String) : Prop :=
  (∃ written ∈ listing.outputs, written.entry.name = name ∧ written.text = text) ∨
    ∃ written ∈ listing.last, written.1.output = name ∧ written.2 = text

namespace Lists

variable {listing : Listing}

/-- The listing of a program shows the texts of its outputs. -/
theorem exists_text (lists : Lists pool options program listing)
    (isOutput : program.outputs.get? name = some expr) :
    ∃ text, print pool expr = .ok text ∧ listing.Shows name text := by
  by_cases plain : options.isPlain program.stage (name, expr) = true
  · have member := List.mem_filter.mpr ⟨Table.get?_eq_some_iff.mp isOutput, plain⟩
    obtain ⟨written, isWritten, writes⟩ := lists.outputs.exists_of_mem_left member
    exact ⟨written.text, writes.text, .inl ⟨written, isWritten, writes.name, rfl⟩⟩
  · have isBuiltin : (listing.last.map Prod.fst).any (·.output == name) = true := by
      simpa [EmitOptions.isPlain, lists.builtin] using plain
    cases isLast : listing.last with
    | none =>
        rw [isLast] at isBuiltin
        cases isBuiltin
    | some written =>
        rw [isLast] at isBuiltin
        obtain rfl : written.1.output = name := eq_of_beq isBuiltin
        obtain ⟨found, isFound, printed⟩ := lists.last written isLast
        obtain rfl := Option.some.inj (isOutput.symm.trans isFound)
        exact ⟨written.2, printed, .inr ⟨written, isLast, rfl, rfl⟩⟩

/-- The listing of a program shows nothing else. -/
theorem exists_expr (lists : Lists pool options program listing)
    (shows : listing.Shows name text) :
    ∃ expr, program.outputs.get? name = some expr ∧ print pool expr = .ok text := by
  rcases shows with ⟨written, isWritten, rfl, rfl⟩ | ⟨written, isLast, rfl, rfl⟩
  · obtain ⟨⟨name, expr⟩, member, writes⟩ := lists.outputs.flip.exists_of_mem_left isWritten
    rw [writes.name]
    exact ⟨expr, Table.get?_eq_some_iff.mpr (List.mem_of_mem_filter member), writes.text⟩
  · exact lists.last written isLast

/-- Programs of one listing have outputs of the same names, with expressions of the same text. -/
theorem exists_counterpart (lists : Lists pool options left listing)
    (otherLists : Lists pool options right listing)
    (isOutput : left.outputs.get? name = some expr) :
    ∃ other text, right.outputs.get? name = some other ∧ print pool expr = .ok text ∧
      print pool other = .ok text := by
  obtain ⟨text, printed, shows⟩ := lists.exists_text isOutput
  obtain ⟨other, isOther, otherPrinted⟩ := otherLists.exists_expr shows
  exact ⟨other, text, isOther, printed, otherPrinted⟩

/-- Programs with one listing have the same output names. -/
theorem keys_subset (lists : Lists pool options left listing)
    (otherLists : Lists pool options right listing) (isName : name ∈ left.outputs.keys) :
    name ∈ right.outputs.keys := by
  obtain ⟨⟨_, expr⟩, member, rfl⟩ := List.mem_map.mp isName
  obtain ⟨other, -, isOther, -⟩ :=
    lists.exists_counterpart otherLists (Table.get?_eq_some_iff.mpr member)
  exact List.mem_map.mpr ⟨_, Table.get?_eq_some_iff.mp isOther, rfl⟩

end Lists

/-- The built-in variables have names on one line. -/
theorem oneLine_target {stage : Stage} {builtin : Builtin}
    (isBuiltin : options.builtin? stage = some builtin) : OneLine builtin.target := by
  unfold EmitOptions.builtin? at isBuiltin
  split at isBuiltin
  · cases isBuiltin
    exact (by decide : OneLine "gl_Position")
  · cases isBuiltin
    exact (by decide : OneLine "gl_FragColor")
  · cases isBuiltin

end Glsl

/-- The outputs of the program are in the pool. Its names, and the names of the variables below its
outputs, are identifiers. -/
structure Program.Legible (program : Program) (pool : Pool) : Prop where
  present : ∀ expr ∈ program.outputs.values, pool.contains expr = true
  inputs : ∀ input ∈ program.inputs, Glsl.isIdentifier input.name = true
  uniforms : ∀ uniform ∈ program.uniforms, Glsl.isIdentifier uniform.name = true
  outputs : ∀ name ∈ program.outputs.keys, Glsl.isIdentifier name = true
  vars : ∀ expr ∈ program.outputs.values, ∀ id type name, pool.Below expr id →
    pool.node? id = some (.var type name) → Glsl.isIdentifier name = true

/-- It is enough to look at the trees of the outputs. -/
theorem Program.Legible.of_trees (wf : pool.WellFormed)
    (trees : ∀ expr ∈ program.outputs.values, ∃ tree ∈ pool.tree? expr, tree.Identified)
    (inputs : ∀ input ∈ program.inputs, Glsl.isIdentifier input.name = true)
    (uniforms : ∀ uniform ∈ program.uniforms, Glsl.isIdentifier uniform.name = true)
    (outputs : ∀ name ∈ program.outputs.keys, Glsl.isIdentifier name = true) :
    program.Legible pool where
  present expr isOutput := by
    obtain ⟨tree, unfolded, -⟩ := trees expr isOutput
    exact wf.contains_of_tree? unfolded
  inputs := inputs
  uniforms := uniforms
  outputs := outputs
  vars expr isOutput id type name below found := by
    obtain ⟨tree, unfolded, identified⟩ := trees expr isOutput
    exact identified (type, name) ((wf.mem_vars_iff unfolded).mpr ⟨id, below, found⟩)

/-- The text of an output of a legible program is on one line. -/
theorem Program.Legible.oneLine (legible : program.Legible pool) (wf : pool.WellFormed)
    (isOutput : expr ∈ program.outputs.values) (printed : Glsl.print pool expr = .ok text) :
    Glsl.OneLine text :=
  wf.oneLine_of_print (legible.present expr isOutput) printed (legible.vars expr isOutput)

/-- What is written for a legible program is proper. -/
theorem Glsl.Lists.proper {listing : Listing} (lists : Lists pool options program listing)
    (wf : pool.WellFormed) (legible : program.Legible pool) : listing.Proper where
  inputs := lists.inputs ▸ legible.inputs
  uniforms := lists.uniforms ▸ legible.uniforms
  outputs written isWritten := by
    obtain ⟨output, member, writes⟩ := lists.outputs.flip.exists_of_mem_left isWritten
    have isOutput := List.mem_of_mem_filter member
    refine ⟨writes.name ▸ legible.outputs output.1 (List.mem_map_of_mem isOutput), ?_⟩
    exact legible.oneLine wf (List.mem_map_of_mem isOutput) writes.text
  last written isLast := by
    obtain ⟨expr, isOutput, printed⟩ := lists.last written isLast
    have isBuiltin : options.builtin? program.stage = some written.1 := by
      rw [← lists.builtin, isLast]
      rfl
    refine ⟨oneLine_target isBuiltin, legible.oneLine wf ?_ printed⟩
    exact List.mem_map_of_mem (Table.get?_eq_some_iff.mp isOutput)

/-! ### Emitters in use -/

/-- Calls on a pool do nothing to the emitter. -/
theorem Workspace.serveAll_calls (workspace : Workspace) (session : Nat) (calls : List Call) :
    (workspace.serveAll (calls.map (.call session))).pools session =
        (workspace.pools session).afterCalls calls ∧
      (workspace.serveAll (calls.map (.call session))).emitter = workspace.emitter := by
  induction calls generalizing workspace with
  | nil => exact ⟨rfl, rfl⟩
  | cons call calls ih =>
      obtain ⟨samePool, sameEmitter⟩ := ih (workspace.serve (.call session call))
      have called : (workspace.serve (.call session call)).pools session =
          (workspace.pools session).afterCall call := Function.update_self ..
      rw [called] at samePool
      exact ⟨samePool, sameEmitter⟩

/-- Requests leave reachable pools reachable. -/
theorem Workspace.reachable_serveAll {workspace : Workspace}
    (reachable : ∀ session, (workspace.pools session).Reachable) (requests : List Request) :
    ∀ session, ((workspace.serveAll requests).pools session).Reachable := by
  induction requests generalizing workspace with
  | nil => exact reachable
  | cons request rest ih =>
      refine @ih (workspace.serve request) ?_
      cases request with
      | call changed call =>
          refine (Function.forall_update_iff _ fun _ (pool : Pool) => pool.Reachable).mpr ⟨?_, ?_⟩
          · exact (reachable changed).afterCall call
          · exact fun other _ => reachable other
      | bind _ _ | evaluate _ _ | print _ _ | emit _ _ | emitNode _ _ => exact reachable

namespace Glsl.Emitter

variable {emitter leftEmitter rightEmitter : Emitter}

/-- The pool and the emitter are what requests have left, the emitter with given options. -/
def InUse (options : EmitOptions) (pool : Pool) (emitter : Emitter) : Prop :=
  ∃ bindings requests session,
    ((Workspace.start bindings options).serveAll requests).pools session = pool ∧
      ((Workspace.start bindings options).serveAll requests).emitter = emitter

/-- A new emitter can be used on every pool. -/
theorem inUse_new (options : EmitOptions) (reachable : pool.Reachable) :
    InUse options pool { options } := by
  obtain ⟨session, calls, rfl⟩ := reachable
  exact ⟨.empty, calls.map (.call session), session,
    Workspace.serveAll_calls (.start .empty options) session calls⟩

/-- The pool of an emitter in use is reachable. -/
theorem InUse.reachable (inUse : emitter.InUse options pool) : pool.Reachable := by
  obtain ⟨bindings, requests, session, rfl, -⟩ := inUse
  exact Workspace.reachable_serveAll (fun session => ⟨session, [], rfl⟩) requests session

/-- The cache of an emitter in use has no wrong results. -/
theorem InUse.exists_cache (inUse : emitter.InUse options pool) :
    pool.WellFormed ∧ ∃ cache, emitter = ⟨options, cache⟩ ∧ cache.Serves textual pool := by
  obtain ⟨bindings, requests, session, rfl, rfl⟩ := inUse
  have coherent := (Workspace.coherent_start bindings options).serveAll requests
  obtain ⟨cache, isEmitter, sound⟩ := coherent.emitter
  refine ⟨coherent.wellFormed session, cache, isEmitter, ?_⟩
  rw [Cache.Serves, coherent.session]
  exact sound.attach session

/-- An emitter in use writes the listing of a program. -/
theorem InUse.exists_listing (inUse : emitter.InUse options pool)
    (present : ∀ expr ∈ program.outputs.values, pool.contains expr = true)
    (emitted : answerOf (emit pool program) emitter = .ok text) :
    ∃ listing, Lists pool options program listing ∧
      text = (listing.lines options.dialect program.stage).render options := by
  obtain ⟨wf, cache, rfl, serves⟩ := inUse.exists_cache
  obtain ⟨after, ran⟩ := answerOf_eq_ok emitted
  rw [emit] at ran
  cases written : Glsl.emit options pool program cache with
  | error cause left =>
      rw [written] at ran
      cases ran
  | ok result next =>
      rw [written] at ran
      cases ran
      exact Glsl.exists_listing wf serves present written

/-- Programs of one stage with one source text, written with the same options by any emitters in
use, have the same inputs, the same uniforms and outputs of the same names, and the expressions of
each output have the same text. -/
theorem source_determines_program (leftInUse : leftEmitter.InUse options pool)
    (rightInUse : rightEmitter.InUse options pool) (sameStage : left.stage = right.stage)
    (leftLegible : left.Legible pool) (rightLegible : right.Legible pool)
    (leftEmitted : answerOf (emit pool left) leftEmitter = .ok text)
    (rightEmitted : answerOf (emit pool right) rightEmitter = .ok text) :
    left.inputs = right.inputs ∧ left.uniforms = right.uniforms ∧
      (∀ name, name ∈ left.outputs.keys ↔ name ∈ right.outputs.keys) ∧
      ∀ name leftExpr rightExpr, left.outputs.get? name = some leftExpr →
        right.outputs.get? name = some rightExpr →
        ∃ exprText, print pool leftExpr = .ok exprText ∧ print pool rightExpr = .ok exprText := by
  obtain ⟨wf, -⟩ := leftInUse.exists_cache
  obtain ⟨listing, lists, rfl⟩ := leftInUse.exists_listing leftLegible.present leftEmitted
  obtain ⟨other, otherLists, sameText⟩ :=
    rightInUse.exists_listing rightLegible.present rightEmitted
  have sameBuiltin : listing.last.map Prod.fst = other.last.map Prod.fst := by
    rw [lists.builtin, otherLists.builtin, sameStage]
  obtain rfl : listing = other := by
    rw [sameStage] at sameText
    exact (lists.proper wf leftLegible).eq_of_render (otherLists.proper wf rightLegible)
      sameBuiltin sameText
  refine ⟨lists.inputs.symm.trans otherLists.inputs, lists.uniforms.symm.trans otherLists.uniforms,
    fun name => ⟨lists.keys_subset otherLists, otherLists.keys_subset lists⟩, ?_⟩
  intro name leftExpr rightExpr isLeft isRight
  obtain ⟨other, exprText, isOther, leftPrinted, rightPrinted⟩ :=
    lists.exists_counterpart otherLists isLeft
  obtain rfl := Option.some.inj (isOther.symm.trans isRight)
  exact ⟨exprText, leftPrinted, rightPrinted⟩

/-- Requests that make variables of one name and two types, negate them, and have the negation of
the first one written by the emitter. -/
def homonyms : List Request :=
  [.call 0 (.var .vec4 "x"), .call 0 (.unary .neg 0),
    .emit 0 { stage := .fragment, outputs := Table.empty.insert "o_Color" 1 },
    .call 0 (.var .vec3 "x"), .call 0 (.unary .neg 2), .call 0 (.var .float "k")]

/-- A fragment program with a local variable beside its color. -/
def glowing (color : NodeId) : Program where
  stage := .fragment
  inputs := [⟨"x", .vec4⟩]
  uniforms := [⟨"k", .float⟩]
  outputs := (Table.empty.insert "o_Color" color).insert "glow" 4

/-- Two programs with one source text, from emitters with different caches: their colors are
different nodes that are printed alike. -/
theorem source_determines_program_homonyms :
    let workspace := (Workspace.start .empty {}).serveAll homonyms
    let pool := workspace.pools 0
    let source :=
      "#version 100\nprecision highp float;\nvarying vec4 x;\nuniform float k;\n" ++
        "void main(void) \x7b\n  float glow = k;\n  gl_FragColor = (-x);\n\x7d\n"
    workspace.emitter.cache.results.contains 1 = true ∧ glowing 1 ≠ glowing 3 ∧
      (glowing 1).Legible pool ∧ (glowing 3).Legible pool ∧
      answerOf (emit pool (glowing 1)) workspace.emitter = .ok source ∧
      answerOf (emit pool (glowing 3)) {} = .ok source ∧
      ∃ text, print pool 1 = .ok text ∧ print pool 3 = .ok text := by
  intro workspace pool source
  have cached : workspace.emitter.cache.results.contains 1 = true := by decide +kernel
  have different : glowing 1 ≠ glowing 3 := by decide +kernel
  have emitted : answerOf (emit pool (glowing 1)) workspace.emitter = .ok source := by
    decide +kernel
  have otherEmitted : answerOf (emit pool (glowing 3)) {} = .ok source := by decide +kernel
  have sameStage : (glowing 1).stage = (glowing 3).stage := rfl
  have inUse : workspace.emitter.InUse {} pool := ⟨.empty, homonyms, 0, rfl, rfl⟩
  have reachable := inUse.reachable
  have legible : (glowing 1).Legible pool := .of_trees reachable.wellFormed (by decide +kernel)
    (by decide +kernel) (by decide +kernel) (by decide +kernel)
  have otherLegible : (glowing 3).Legible pool := .of_trees reachable.wellFormed
    (by decide +kernel) (by decide +kernel) (by decide +kernel) (by decide +kernel)
  obtain ⟨-, -, -, sameTexts⟩ := source_determines_program inUse (inUse_new {} reachable)
    sameStage legible otherLegible emitted otherEmitted
  exact ⟨cached, different, legible, otherLegible, emitted, otherEmitted,
    sameTexts "o_Color" 1 3 rfl rfl⟩

end Glsl.Emitter

end Shading
