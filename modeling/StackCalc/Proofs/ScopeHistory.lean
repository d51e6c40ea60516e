import StackCalc.Proofs.Renaming

/-!
# Scopes told from what was called

Whatever was bound, entered and left, in whatever order, scopes answer as nested lexical frames do.
What they answer is told here from the calls alone: which bodies are open, what is bound directly in
a body, and which entries are live, an entry being live until the body is left in which it was made.
-/

namespace StackCalc.Scopes

inductive Call where
  | bind (name : String)
  | enter (name : String) (arity : Nat)
  | exit

/-- What scopes answer when they are asked, and what they would answer to the next call. -/
@[ext]
structure Answers where
  depth : Nat
  findVariable? : String → Option ScopedName
  findFunction? : String → Option FunctionEntry
  frameBindings : List ScopedName
  bind : String → ScopedName
  enter? : String → Nat → Option ScopedName
  exit? : Option (ScopedName × List ScopedName)

section Frames

-- the answers after calls, the latest of which is the first of the list
variable (answers : List Call → Answers)

/-- The names of the functions whose bodies are open, the innermost first. -/
def enclosing : List Call → List String
  | [] => []
  | .bind _ :: past => enclosing past
  | .enter f arity :: past =>
    if ((answers past).enter? f arity).isSome then f :: enclosing past else enclosing past
  | .exit :: past => (enclosing past).tail

/-- What is bound at a depth by calls that follow others, the newest first. -/
def boundAt (depth : Nat) (past : List Call) : List Call → List ScopedName
  | [] => []
  | .bind x :: calls =>
    if (answers (calls ++ past)).depth = depth then
      (answers (calls ++ past)).bind x :: boundAt depth past calls
    else boundAt depth past calls
  | .enter _ _ :: calls | .exit :: calls => boundAt depth past calls

/-- A function is entered, and the calls that follow lead back into its body and never out of it. -/
structure Inside (past : List Call) (f : String) (arity : Nat) (id : ScopedName)
    (calls : List Call) : Prop where
  entered : (answers past).enter? f arity = some id
  stays : ∀ part, part <:+ calls →
    (answers past).depth < (answers (part ++ .enter f arity :: past)).depth
  back : (answers (calls ++ .enter f arity :: past)).depth = (answers past).depth + 1

variable {α : Type}

/-- An entry that was made at a level, so many calls ago, and is still live: no call since has led
out of the body in which it was made. -/
inductive Live (made? : List Call → Call → Option α) :
    (past : List Call) → (level age : Nat) → α → Prop
  | made {past c a} (h : made? past c = some a) : Live made? (c :: past) (answers past).depth 0 a
  | kept {past c level age a} (h : Live made? past level age a)
      (hdepth : level ≤ (answers (c :: past)).depth) : Live made? (c :: past) level (age + 1) a

/-- The newest live entry of a name, or none if there is no live entry of the name. -/
inductive IsNewest (made? : List Call → Call → Option α) (nameOf : α → String) (name : String)
    (past : List Call) : Option α → Prop
  | found {level age a} (h : Live answers made? past level age a) (hname : nameOf a = name)
      (hnewest : ∀ level' age' b, Live answers made? past level' age' b → nameOf b = name →
        age ≤ age') : IsNewest made? nameOf name past (some a)
  | missing (h : ∀ level age a, Live answers made? past level age a → nameOf a ≠ name) :
      IsNewest made? nameOf name past none

/-- The variable that a call binds. -/
def newVariable? (past : List Call) : Call → Option ScopedName
  | .bind x => some ((answers past).bind x)
  | .enter _ _ | .exit => none

/-- The function that a call enters. -/
def newFunction? (past : List Call) : Call → Option FunctionEntry
  | .enter f arity => ((answers past).enter? f arity).map (⟨·, arity⟩)
  | .bind _ | .exit => none

/-- The names of the functions that calls enter have no points. -/
def PointFree (calls : List Call) : Prop :=
  ∀ f arity, .enter f arity ∈ calls → '.' ∉ f.toList

/-- The answers are those of nested lexical frames. -/
structure LexicalFrames : Prop where
  depth : ∀ past, (answers past).depth = (enclosing answers past).length
  bindings : ∀ {past f arity id calls}, Inside answers past f arity id calls →
    (answers (calls ++ .enter f arity :: past)).frameBindings =
      boundAt answers ((answers past).depth + 1) (.enter f arity :: past) calls
  released : ∀ {past f arity id calls}, Inside answers past f arity id calls →
    (answers (calls ++ .enter f arity :: past)).exit? =
      some (id, boundAt answers ((answers past).depth + 1) (.enter f arity :: past) calls)
  restored : ∀ {past f arity id calls}, Inside answers past f arity id calls →
    (answers (.exit :: (calls ++ .enter f arity :: past))).depth = (answers past).depth ∧
    (∀ x, (answers (.exit :: (calls ++ .enter f arity :: past))).findVariable? x =
      (answers past).findVariable? x) ∧
    ∀ x, (answers (.exit :: (calls ++ .enter f arity :: past))).findFunction? x =
      if x = f then some ⟨id, arity⟩ else (answers past).findFunction? x
  rejected : ∀ {past f arity}, (answers past).enter? f arity = none →
    ∀ calls, answers (calls ++ .enter f arity :: past) = answers (calls ++ past)
  newest_variable : ∀ past x,
    IsNewest answers (newVariable? answers) (·.name) x past ((answers past).findVariable? x)
  newest_function : ∀ past x,
    IsNewest answers (newFunction? answers) (·.id.name) x past ((answers past).findFunction? x)
  local_name : ∀ past x, ((answers past).bind x).name = x
  entered : ∀ {past f arity id}, (answers past).enter? f arity = some id →
    id = (answers past).bind f
  qualified : ∀ {past past' x y}, PointFree past → PointFree past' → '.' ∉ x.toList →
    '.' ∉ y.toList →
    (((answers past).bind x).qualified = ((answers past').bind y).qualified ↔
      x = y ∧ enclosing answers past = enclosing answers past')
  once : ∀ {past f arity}, PointFree (.enter f arity :: past) →
    ((answers past).enter? f arity = none ↔ ∃ later arity' earlier,
      past = later ++ .enter f arity' :: earlier ∧
      ((answers earlier).enter? f arity').isSome ∧
      enclosing answers earlier = enclosing answers past)

end Frames

section Entries

variable {α : Type} {answers : List Call → Answers} {made? : List Call → Call → Option α}
  {past : List Call}

/-- The live entries with their levels and ages, the newest first. -/
def liveEntries (answers : List Call → Answers) (made? : List Call → Call → Option α) :
    List Call → List (Nat × Nat × α)
  | [] => []
  | c :: past =>
    (made? past c).toList.map ((answers past).depth, 0, ·) ++
      ((liveEntries answers made? past).filter (·.1 ≤ (answers (c :: past)).depth)).map
        fun e => (e.1, e.2.1 + 1, e.2.2)

theorem mem_liveEntries {level age : Nat} {a : α} :
    (level, age, a) ∈ liveEntries answers made? past ↔ Live answers made? past level age a := by
  induction past generalizing level age a with
  | nil =>
      refine ⟨fun h => ?_, fun h => ?_⟩
      · cases h
      · cases h
  | cons c past ih =>
      rw [liveEntries, List.mem_append, List.mem_map, List.mem_map]
      constructor
      · rintro (⟨b, hb, heq⟩ | ⟨⟨level', age', b⟩, hb, heq⟩)
        · cases heq
          exact .made (Option.mem_toList.1 hb)
        · cases heq
          obtain ⟨hmem, hdepth⟩ := List.mem_filter.1 hb
          exact .kept (ih.1 hmem) (of_decide_eq_true hdepth)
      · intro h
        cases h with
        | made h => exact .inl ⟨a, Option.mem_toList.2 h, rfl⟩
        | kept h hdepth =>
            exact .inr ⟨_, List.mem_filter.2 ⟨ih.2 h, decide_eq_true hdepth⟩, rfl⟩

theorem pairwise_liveEntries (past : List Call) :
    (liveEntries answers made? past).Pairwise (·.2.1 < ·.2.1) := by
  induction past with
  | nil => exact .nil
  | cons c past ih =>
      rw [liveEntries, List.pairwise_append, List.pairwise_map, List.pairwise_map]
      refine ⟨?_, ?_, ?_⟩
      · cases made? past c with
        | none => exact .nil
        | some a => exact List.pairwise_singleton _ _
      · exact (ih.filter _).imp fun h => Nat.succ_lt_succ h
      · intro e he e' he'
        obtain ⟨_, -, rfl⟩ := List.mem_map.1 he
        obtain ⟨_, -, rfl⟩ := List.mem_map.1 he'
        exact Nat.succ_pos _

theorem map_liveEntries_cons (c : Call) (past : List Call) :
    (liveEntries answers made? (c :: past)).map (fun e => (e.1, e.2.2)) =
      (made? past c).toList.map ((answers past).depth, ·) ++
        ((liveEntries answers made? past).map fun e => (e.1, e.2.2)).filter
          (·.1 ≤ (answers (c :: past)).depth) := by
  rw [liveEntries, List.map_append, List.map_map, List.map_map, List.filter_map]
  rfl

theorem isNewest_find? (nameOf : α → String) (name : String) (past : List Call) :
    IsNewest answers made? nameOf name past
      (((liveEntries answers made? past).find? (nameOf ·.2.2 = name)).map (·.2.2)) := by
  cases h : (liveEntries answers made? past).find? (nameOf ·.2.2 = name) with
  | none =>
      refine .missing fun level age a ha hname => ?_
      exact List.find?_eq_none.1 h _ (mem_liveEntries.2 ha) (decide_eq_true hname)
  | some e =>
      obtain ⟨hname, newer, older, hlist, hnewer⟩ := List.find?_eq_some_iff_append.1 h
      have hsorted : (liveEntries answers made? past).Pairwise _ := pairwise_liveEntries past
      rw [hlist, List.pairwise_append, List.pairwise_cons] at hsorted
      have hmem : e ∈ liveEntries answers made? past := by simp [hlist]
      refine .found (mem_liveEntries.1 hmem) (of_decide_eq_true hname) ?_
      intro level' age' b hb hb'
      have hmem' := mem_liveEntries.2 hb
      rw [hlist, List.mem_append, List.mem_cons] at hmem'
      rcases hmem' with hmem' | rfl | hmem'
      · exact absurd (decide_eq_true hb') (by simpa using hnewer _ hmem')
      · exact Nat.le_refl _
      · exact Nat.le_of_lt (hsorted.2.1.1 _ hmem')

end Entries

def answers (s : Scopes) : Answers where
  depth := s.depth
  findVariable? := s.findVariable?
  findFunction? := s.findFunction?
  frameBindings := s.frameBindings
  bind x := (s.bind x).1
  enter? f arity := (s.enter? f arity).map (·.1)
  exit? := s.exit?.map fun (body, _) => (body.function, body.scope.vars)

/-- A function that is refused, and leaving the top level, change nothing. -/
def carryOut (s : Scopes) : Call → Scopes
  | .bind x => (s.bind x).2
  | .enter f arity => ((s.enter? f arity).map (·.2)).getD s
  | .exit => (s.exit?.map (·.2)).getD s

/-- The scopes after calls, the latest of which is the first. -/
def after : List Call → Scopes
  | [] => empty
  | c :: past => (after past).carryOut c

/-- What scopes answer after calls. -/
def told (past : List Call) : Answers := (after past).answers

section Calls

variable {s : Scopes} {past : List Call} {f : String} {arity : Nat} {id : ScopedName}

theorem carryOut_bind (s : Scopes) (x : String) :
    s.carryOut (.bind x) = s.grow [s.qualify x] [] [] := by
  rw [carryOut, bind_eq]

theorem enter_cases (s : Scopes) (f : String) (arity : Nat) :
    ((s.qualify f).qualified ∈ s.defined ∧ s.answers.enter? f arity = none ∧
      s.carryOut (.enter f arity) = s) ∨
    ((s.qualify f).qualified ∉ s.defined ∧ s.answers.enter? f arity = some (s.qualify f) ∧
      s.carryOut (.enter f arity) = s.inside (s.qualify f) arity) := by
  cases h : s.enter? f arity with
  | none =>
      have hgiven : (s.qualify f).qualified ∈ s.defined := by
        by_contra hfresh
        rw [enter?, if_neg hfresh] at h
        cases h
      exact .inl ⟨hgiven, congrArg (Option.map Prod.fst) h, by rw [carryOut, h]; rfl⟩
  | some entered =>
      obtain ⟨id, inner⟩ := entered
      obtain ⟨rfl, hfresh, rfl⟩ := enter_ok h
      exact .inr ⟨hfresh, congrArg (Option.map Prod.fst) h, by rw [carryOut, h]; rfl⟩

theorem entered_of_some (h : (told past).enter? f arity = some id) :
    id = (after past).qualify f ∧
      after (.enter f arity :: past) = (after past).inside id arity := by
  obtain ⟨-, hnone, -⟩ | ⟨-, hsome, hafter⟩ := enter_cases (after past) f arity
  · cases hnone.symm.trans h
  · cases hsome.symm.trans h
    exact ⟨rfl, hafter⟩

theorem after_of_none (h : (told past).enter? f arity = none) (calls : List Call) :
    after (calls ++ .enter f arity :: past) = after (calls ++ past) := by
  induction calls with
  | nil =>
      obtain ⟨-, -, hafter⟩ | ⟨-, hsome, -⟩ := enter_cases (after past) f arity
      · exact hafter
      · cases hsome.symm.trans h
  | cons c calls ih => rw [List.cons_append, List.cons_append, after, after, ih]

theorem carryOut_exit (s : Scopes) :
    s.carryOut .exit = { s with bodies := s.bodies.tail } := by
  obtain ⟨base, bodies, defined⟩ := s
  cases bodies <;> rfl

theorem names_after (past : List Call) :
    (after past).bodies.map (·.function.name) = enclosing told past := by
  have hpath (s : Scopes) : s.bodies.map (·.function.name) = s.path.reverse := by
    rw [path, List.reverse_reverse]
  induction past with
  | nil => rfl
  | cons c past ih =>
      cases c with
      | bind x => rw [after, carryOut_bind, hpath, path_grow, ← hpath, ih, enclosing]
      | enter f arity =>
          rw [enclosing]
          obtain ⟨-, hnone, hafter⟩ | ⟨-, hsome, hafter⟩ := enter_cases (after past) f arity
          · rw [after, hafter, ih, told, hnone]
            rfl
          · rw [after, hafter, hpath, path_inside, List.reverse_append, ← hpath, ih, told, hsome]
            rfl
      | exit => rw [after, carryOut_exit, List.map_tail, ih, enclosing]

theorem depth_after (past : List Call) :
    (told past).depth = (enclosing told past).length := by
  rw [← names_after, List.length_map]
  rfl

end Calls

/-- A body is open with these variables, some bodies are inside it, and around it is `outer`. -/
structure Holds (outer : Scopes) (function : ScopedName) (vars : List ScopedName)
    (inner : List Body) (s : Scopes) : Prop where
  bodies : ∃ functions, s.bodies = inner ++ ⟨function, vars, functions⟩ :: outer.bodies
  base : s.base = outer.base

section Steps

variable {outer s : Scopes} {function : ScopedName} {vars : List ScopedName} {inner : List Body}

theorem Holds.depth_eq (h : Holds outer function vars inner s) :
    s.depth = inner.length + (outer.depth + 1) := by
  obtain ⟨functions, hbodies⟩ := h.bodies
  have hlength := congrArg List.length hbodies
  rwa [List.length_append, List.length_cons] at hlength

theorem Holds.grow (h : Holds outer function vars inner s) (vars' : List ScopedName)
    (functions' : List FunctionEntry) (names : List String) :
    ∃ inner', Holds outer function (if inner = [] then vars' ++ vars else vars) inner'
      (s.grow vars' functions' names) := by
  obtain ⟨⟨functions, hbodies⟩, hbase⟩ := h
  obtain ⟨base, bodies, defined⟩ := s
  cases hbodies
  cases inner with
  | nil => exact ⟨[], ⟨_, rfl⟩, hbase⟩
  | cons b inner => exact ⟨_ :: inner, ⟨functions, rfl⟩, hbase⟩

theorem Holds.opened (h : Holds outer function vars inner s) (f : ScopedName) :
    Holds outer function vars (⟨f, .empty⟩ :: inner) (s.opened f) := by
  obtain ⟨functions, hbodies⟩ := h.bodies
  exact ⟨⟨functions, congrArg (List.cons _) hbodies⟩, h.base⟩

theorem Holds.bind (h : Holds outer function vars inner s) (x : String) :
    ∃ inner', Holds outer function (if inner = [] then s.qualify x :: vars else vars) inner'
      (s.carryOut (.bind x)) := by
  rw [carryOut_bind]
  exact h.grow [s.qualify x] [] []

theorem Holds.enter (h : Holds outer function vars inner s) (f : String) (arity : Nat) :
    ∃ inner', Holds outer function vars inner' (s.carryOut (.enter f arity)) := by
  obtain ⟨-, -, hsame⟩ | ⟨-, -, hinside⟩ := enter_cases s f arity
  · rw [hsame]
    exact ⟨inner, h⟩
  · obtain ⟨inner', hgrown⟩ := h.grow [] [⟨s.qualify f, arity⟩] [(s.qualify f).qualified]
    rw [List.nil_append, ite_self] at hgrown
    rw [hinside]
    exact ⟨_, hgrown.opened (s.qualify f)⟩

/-- The body is not left as long as the depth does not say so. -/
theorem Holds.exit (h : Holds outer function vars inner s)
    (hdepth : outer.depth < (s.carryOut .exit).depth) :
    ∃ inner', Holds outer function vars inner' (s.carryOut .exit) := by
  obtain ⟨functions, hbodies⟩ := h.bodies
  rw [carryOut_exit] at hdepth ⊢
  cases inner with
  | nil =>
      have htail : s.bodies.tail = outer.bodies := congrArg List.tail hbodies
      rw [depth, depth, htail] at hdepth
      exact absurd hdepth (Nat.lt_irrefl _)
  | cons b inner => exact ⟨inner, ⟨functions, congrArg List.tail hbodies⟩, h.base⟩

end Steps

section Bodies

variable {past calls : List Call} {f : String} {arity : Nat} {id : ScopedName}

/-- What is around the body of a function. -/
def around (past : List Call) (f : FunctionEntry) : Scopes := (after past).grow [] [f] []

theorem depth_around (past : List Call) (f : FunctionEntry) :
    (around past f).depth = (told past).depth := (after past).depth_grow [] [f] []

/-- As long as the body of a function is not left, it has the variables that were bound in it
directly, and what is around it stays as it was. -/
theorem holds_after (hentered : (told past).enter? f arity = some id)
    (hstays : ∀ part, part <:+ calls →
      (told past).depth < (told (part ++ .enter f arity :: past)).depth) :
    ∃ inner, Holds (around past ⟨id, arity⟩) id
      (boundAt told ((told past).depth + 1) (.enter f arity :: past) calls) inner
      (after (calls ++ .enter f arity :: past)) := by
  induction calls with
  | nil =>
      obtain ⟨-, hafter⟩ := entered_of_some hentered
      rw [List.nil_append, hafter]
      exact ⟨[], ⟨[], rfl⟩, rfl⟩
  | cons c calls ih =>
      obtain ⟨inner, hholds⟩ :=
        ih fun part hpart => hstays part (hpart.trans (List.suffix_cons c calls))
      have hdepth := hstays _ (List.suffix_refl (c :: calls))
      rw [List.cons_append, after]
      cases c with
      | bind x =>
          -- only what is bound while no body is open inside goes into the body itself
          have hlevel : (told (calls ++ .enter f arity :: past)).depth = (told past).depth + 1 ↔
              inner = [] := by
            have hlength : (told (calls ++ .enter f arity :: past)).depth = _ := hholds.depth_eq
            rw [depth_around] at hlength
            rw [hlength, ← List.length_eq_zero_iff]
            omega
          rw [boundAt]
          simp only [hlevel]
          exact hholds.bind x
      | enter g m => exact hholds.enter g m
      | exit => exact hholds.exit (by rwa [depth_around])

theorem Inside.holds (h : Inside told past f arity id calls) :
    Holds (around past ⟨id, arity⟩) id
      (boundAt told ((told past).depth + 1) (.enter f arity :: past) calls) []
      (after (calls ++ .enter f arity :: past)) := by
  obtain ⟨inner, hholds⟩ := holds_after h.entered h.stays
  have hlength : (told (calls ++ .enter f arity :: past)).depth = _ := hholds.depth_eq
  rw [h.back, depth_around] at hlength
  have hnil : inner = [] := List.eq_nil_of_length_eq_zero (by omega)
  exact hnil ▸ hholds

theorem Inside.bindings (h : Inside told past f arity id calls) :
    (told (calls ++ .enter f arity :: past)).frameBindings =
      boundAt told ((told past).depth + 1) (.enter f arity :: past) calls := by
  obtain ⟨⟨functions, hbodies⟩, -⟩ := h.holds
  change (after _).innermost.vars = _
  rw [innermost, hbodies]
  rfl

theorem Inside.released (h : Inside told past f arity id calls) :
    (told (calls ++ .enter f arity :: past)).exit? =
      some (id, boundAt told ((told past).depth + 1) (.enter f arity :: past) calls) := by
  obtain ⟨⟨functions, hbodies⟩, -⟩ := h.holds
  change (exit? (after _)).map _ = _
  rw [exit?, hbodies]
  rfl

theorem Inside.visible_after_exit (h : Inside told past f arity id calls) :
    (after (.exit :: (calls ++ .enter f arity :: past))).visible =
        (around past ⟨id, arity⟩).visible ∧
      (after (.exit :: (calls ++ .enter f arity :: past))).depth =
        (around past ⟨id, arity⟩).depth := by
  obtain ⟨⟨functions, hbodies⟩, hbase⟩ := h.holds
  rw [after, carryOut_exit, visible, visible, depth, depth, hbodies, hbase]
  exact ⟨rfl, rfl⟩

theorem Inside.restored (h : Inside told past f arity id calls) :
    (told (.exit :: (calls ++ .enter f arity :: past))).depth = (told past).depth ∧
    (∀ x, (told (.exit :: (calls ++ .enter f arity :: past))).findVariable? x =
      (told past).findVariable? x) ∧
    ∀ x, (told (.exit :: (calls ++ .enter f arity :: past))).findFunction? x =
      if x = f then some ⟨id, arity⟩ else (told past).findFunction? x := by
  obtain ⟨hvisible, hdepth⟩ := h.visible_after_exit
  obtain ⟨hid, -⟩ := entered_of_some h.entered
  refine ⟨hdepth.trans (depth_around past _), fun x => ?_, fun x => ?_⟩
  · change Scopes.findVariable? _ x = (after past).findVariable? x
    rw [findVariable?, hvisible, around, vars_grow]
    rfl
  · change Scopes.findFunction? _ x = _
    have hname : id.name = f := congrArg ScopedName.name hid
    rw [findFunction?, hvisible, around, functions_grow, List.singleton_append, List.find?_cons,
      hname]
    by_cases hx : f = x
    · rw [if_pos hx.symm, decide_eq_true hx]
    · rw [if_neg fun h => hx h.symm, decide_eq_false hx]
      rfl

end Bodies

section Newest

variable {α : Type}

/-- What the open scopes have, each with the depth of its scope, the innermost first. -/
def leveled (entries : Scope → List α) (base : Scope) : List Body → List (Nat × α)
  | [] => (entries base).map (0, ·)
  | body :: bodies =>
    (entries body.scope).map (bodies.length + 1, ·) ++ leveled entries base bodies

variable (entries : Scope → List α)

theorem map_leveled (base : Scope) (bodies : List Body) :
    (leveled entries base bodies).map Prod.snd =
      (bodies.map (·.scope) ++ [base]).flatMap entries := by
  induction bodies with
  | nil => simp [leveled]
  | cons body bodies ih => simp [leveled, ih]

theorem le_of_mem_leveled {base : Scope} {bodies : List Body} :
    ∀ e ∈ leveled entries base bodies, e.1 ≤ bodies.length := by
  induction bodies with
  | nil => simp [leveled]
  | cons body bodies ih =>
      refine List.forall_mem_append.2 ⟨by simp, fun e he => ?_⟩
      exact Nat.le_succ_of_le (ih e he)

theorem filter_leveled {base : Scope} {bodies : List Body} {limit : Nat}
    (h : bodies.length ≤ limit) :
    (leveled entries base bodies).filter (·.1 ≤ limit) = leveled entries base bodies :=
  List.filter_eq_self.2 fun e he =>
    decide_eq_true (Nat.le_trans (le_of_mem_leveled entries e he) h)

/-- The depth of what is around a body leaves no entry of the body. -/
theorem filter_leveled_tail (base : Scope) (bodies : List Body) :
    (leveled entries base bodies).filter (·.1 ≤ bodies.tail.length) =
      leveled entries base bodies.tail := by
  cases bodies with
  | nil => exact filter_leveled entries (Nat.le_refl _)
  | cons body bodies =>
      rw [leveled, List.filter_append, List.tail_cons, filter_leveled entries (Nat.le_refl _)]
      have hnone : ((entries body.scope).map (bodies.length + 1, ·)).filter
          (·.1 ≤ bodies.length) = [] := by
        rw [List.filter_eq_nil_iff]
        simp
      rw [hnone, List.nil_append]

theorem leveled_grow (s : Scopes) {vars : List ScopedName} {functions : List FunctionEntry}
    (names : List String) {new : List α}
    (hnew : ∀ scope : Scope,
      entries ⟨vars ++ scope.vars, functions ++ scope.functions⟩ = new ++ entries scope) :
    leveled entries (s.grow vars functions names).base (s.grow vars functions names).bodies =
      new.map (s.depth, ·) ++ leveled entries s.base s.bodies := by
  obtain ⟨base, bodies, defined⟩ := s
  cases bodies with
  | nil => simp [grow, modifyInnermost, leveled, hnew, depth]
  | cons body bodies => simp [grow, modifyInnermost, leveled, hnew, depth]

/-- The entries that calls make are those that scopes have. -/
structure Feeds (entries : Scope → List α) (made? : List Call → Call → Option α) : Prop where
  empty : entries .empty = []
  bind : ∀ past x, ∀ scope : Scope,
    entries ⟨[(after past).qualify x] ++ scope.vars, [] ++ scope.functions⟩ =
      (made? past (.bind x)).toList ++ entries scope
  enter : ∀ {past f arity id}, (told past).enter? f arity = some id → ∀ scope : Scope,
    entries ⟨[] ++ scope.vars, [⟨id, arity⟩] ++ scope.functions⟩ =
      (made? past (.enter f arity)).toList ++ entries scope
  refused : ∀ {past f arity}, (told past).enter? f arity = none →
    made? past (.enter f arity) = none
  exit : ∀ past, made? past .exit = none

theorem feeds_vars : Feeds (·.vars) (newVariable? told) where
  empty := rfl
  bind _ _ _ := rfl
  enter _ _ := rfl
  refused _ := rfl
  exit _ := rfl

theorem feeds_functions : Feeds (·.functions) (newFunction? told) where
  empty := rfl
  bind _ _ _ := rfl
  enter h scope := by
    rw [newFunction?, h]
    rfl
  refused h := by
    rw [newFunction?, h]
    rfl
  exit _ := rfl

variable {entries}

/-- What the open scopes have is what is live. -/
theorem Feeds.leveled_after {made? : List Call → Call → Option α} (h : Feeds entries made?)
    (past : List Call) : (liveEntries told made? past).map (fun e => (e.1, e.2.2)) =
      leveled entries (after past).base (after past).bodies := by
  induction past with
  | nil =>
      change [] = (entries .empty).map _
      rw [h.empty]
      rfl
  | cons c past ih =>
      rw [map_liveEntries_cons, ih]
      change _ ++ List.filter (·.1 ≤ ((after past).carryOut c).depth) _ =
        leveled entries ((after past).carryOut c).base ((after past).carryOut c).bodies
      have hall : (after past).bodies.length ≤ (after past).depth := Nat.le_refl _
      cases c with
      | bind x =>
          rw [carryOut_bind, depth_grow, filter_leveled entries hall,
            leveled_grow entries _ [] (h.bind past x)]
          rfl
      | enter f arity =>
          obtain ⟨-, hnone, hsame⟩ | ⟨-, hsome, hinside⟩ := enter_cases (after past) f arity
          · rw [hsame, filter_leveled entries hall, h.refused hnone]
            rfl
          · rw [hinside, inside]
            let grown := (after past).grow [] [⟨(after past).qualify f, arity⟩]
              [((after past).qualify f).qualified]
            have hdepth : (after past).bodies.length ≤
                (grown.opened ((after past).qualify f)).depth :=
              Nat.le_succ_of_le (Nat.le_of_eq (depth_grow _ _ _ _).symm)
            have hopened : leveled entries (grown.opened ((after past).qualify f)).base
                (grown.opened ((after past).qualify f)).bodies =
                  leveled entries grown.base grown.bodies := by
              rw [opened, leveled, h.empty]
              rfl
            rw [filter_leveled entries hdepth, hopened,
              leveled_grow entries _ _ (h.enter hsome)]
            rfl
      | exit =>
          rw [carryOut_exit, h.exit]
          exact filter_leveled_tail entries _ _

theorem Feeds.isNewest {made? : List Call → Call → Option α} (h : Feeds entries made?)
    (nameOf : α → String) (past : List Call) (name : String) :
    IsNewest told made? nameOf name past
      (((after past).visible.flatMap entries).find? (nameOf · = name)) := by
  have hnewest : IsNewest told made? nameOf name past _ := isNewest_find? nameOf name past
  have hfound : ((after past).visible.flatMap entries).find? (nameOf · = name) =
      ((liveEntries told made? past).find? (nameOf ·.2.2 = name)).map (·.2.2) := by
    rw [visible, ← map_leveled, ← h.leveled_after past, List.map_map, List.find?_map]
    rfl
  rwa [hfound]

end Newest

section Names

variable {past past' : List Call} {x y f : String} {arity : Nat}

theorem point_free_enclosing (h : PointFree past) :
    ∀ name ∈ enclosing told past, '.' ∉ name.toList := by
  induction past with
  | nil => exact List.forall_mem_nil _
  | cons c past ih =>
      have hpast := ih fun f arity hmem => h f arity (List.mem_cons_of_mem _ hmem)
      cases c with
      | bind x => exact hpast
      | enter f arity =>
          rw [enclosing]
          split
          · exact List.forall_mem_cons.2 ⟨h f arity List.mem_cons_self, hpast⟩
          · exact hpast
      | exit => exact fun name hname => hpast name (List.mem_of_mem_tail hname)

theorem path_after (past : List Call) : (after past).path = (enclosing told past).reverse := by
  rw [path, names_after]

theorem qualify_inj (h : PointFree past) (h' : PointFree past') (hx : '.' ∉ x.toList)
    (hy : '.' ∉ y.toList) :
    ((after past).qualify x).qualified = ((after past').qualify y).qualified ↔
      x = y ∧ enclosing told past = enclosing told past' := by
  have hparts {past : List Call} {x : String} (h : PointFree past) (hx : '.' ∉ x.toList) :
      Source.parts ((after past).qualify x).qualified = (after past).path ++ [x] := by
    refine Source.parts_intercalate ?_ (by simp)
    rw [path_after]
    refine List.forall_mem_append.2 ⟨?_, List.forall_mem_singleton.2 hx⟩
    exact fun name hname => point_free_enclosing h name (List.mem_reverse.1 hname)
  constructor
  · intro heq
    have hlists := congrArg Source.parts heq
    rw [hparts h hx, hparts h' hy] at hlists
    obtain ⟨hpath, hname⟩ := List.append_inj' hlists rfl
    rw [path_after, path_after, List.reverse_inj] at hpath
    exact ⟨List.singleton_inj.1 hname, hpath⟩
  · rintro ⟨rfl, henclosing⟩
    rw [qualify, qualify, path_after, path_after, henclosing]

theorem exists_enter_cons {entered : String → Nat → List Call → Prop} {c : Call} :
    (∃ later f arity earlier, c :: past = later ++ .enter f arity :: earlier ∧
      entered f arity earlier) ↔
    (∃ f arity, c = .enter f arity ∧ entered f arity past) ∨
      ∃ later f arity earlier, past = later ++ .enter f arity :: earlier ∧
        entered f arity earlier := by
  constructor
  · rintro ⟨later, f, arity, earlier, heq, h⟩
    cases later with
    | nil =>
        cases heq
        exact .inl ⟨f, arity, rfl, h⟩
    | cons c later =>
        cases heq
        exact .inr ⟨later, f, arity, earlier, rfl, h⟩
  · rintro (⟨f, arity, rfl, h⟩ | ⟨later, f, arity, earlier, rfl, h⟩)
    · exact ⟨[], f, arity, past, rfl, h⟩
    · exact ⟨c :: later, f, arity, earlier, rfl, h⟩

theorem mem_defined_after {q : String} : q ∈ (after past).defined ↔
    ∃ later f arity earlier, past = later ++ .enter f arity :: earlier ∧
      ((told earlier).enter? f arity).isSome ∧ ((after earlier).qualify f).qualified = q := by
  induction past with
  | nil => simp [after, empty]
  | cons c past ih =>
      rw [exists_enter_cons, ← ih, after]
      cases c with
      | bind x =>
          rw [carryOut_bind]
          simp
      | enter f arity =>
          obtain ⟨-, hnone, hsame⟩ | ⟨-, hsome, hinside⟩ := enter_cases (after past) f arity
          · rw [hsame]
            simp [told, hnone]
          · rw [hinside]
            change q ∈ ((after past).qualify f).qualified :: (after past).defined ↔ _
            rw [List.mem_cons]
            refine or_congr_left ⟨?_, ?_⟩
            · rintro rfl
              exact ⟨f, arity, rfl, Option.isSome_iff_exists.2 ⟨_, hsome⟩, rfl⟩
            · rintro ⟨_, _, heq, -, rfl⟩
              cases heq
              rfl
      | exit =>
          rw [carryOut_exit]
          simp

theorem enter_eq_none_iff (h : PointFree (.enter f arity :: past)) :
    (told past).enter? f arity = none ↔ ∃ later arity' earlier,
      past = later ++ .enter f arity' :: earlier ∧ ((told earlier).enter? f arity').isSome ∧
      enclosing told earlier = enclosing told past := by
  have hgiven : (told past).enter? f arity = none ↔
      ((after past).qualify f).qualified ∈ (after past).defined := by
    obtain ⟨hmem, hnone, -⟩ | ⟨hfresh, hsome, -⟩ := enter_cases (after past) f arity
    · exact iff_of_true hnone hmem
    · refine iff_of_false (fun hnone => ?_) hfresh
      cases hsome.symm.trans hnone
  have hpast : PointFree past := fun g m hmem => h g m (List.mem_cons_of_mem _ hmem)
  have hf := h f arity List.mem_cons_self
  rw [hgiven, mem_defined_after]
  constructor
  · rintro ⟨later, g, m, earlier, rfl, hentered, heq⟩
    have hearlier : PointFree earlier := fun g m hmem => hpast g m (by simp [hmem])
    obtain ⟨rfl, henclosing⟩ :=
      (qualify_inj hearlier hpast (hpast g m (by simp)) hf).1 heq
    exact ⟨later, m, earlier, rfl, hentered, henclosing⟩
  · rintro ⟨later, m, earlier, rfl, hentered, henclosing⟩
    have hearlier : PointFree earlier := fun g m hmem => hpast g m (by simp [hmem])
    exact ⟨later, f, m, earlier, rfl, hentered,
      (qualify_inj hearlier hpast hf hf).2 ⟨rfl, henclosing⟩⟩

end Names

theorem lexicalFrames_told : LexicalFrames told where
  depth := depth_after
  bindings h := h.bindings
  released h := h.released
  restored h := h.restored
  rejected h calls := congrArg answers (after_of_none h calls)
  newest_variable past x := feeds_vars.isNewest (·.name) past x
  newest_function past x := feeds_functions.isNewest (·.id.name) past x
  local_name _ _ := rfl
  entered h := (entered_of_some h).1
  qualified h h' hx hy := qualify_inj h h' hx hy
  once h := enter_eq_none_iff h

end StackCalc.Scopes
