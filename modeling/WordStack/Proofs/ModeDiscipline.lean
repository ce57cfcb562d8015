import WordStack.Proofs.Course

/-
  The mode, the definition in progress and the compile buffer are kept apart and change in
  different places, and no failure takes anything back. Still they fit together on every machine
  that operations lead to, in whatever order they are asked for (`Disciplined`), and while a
  definition stays open no operation touches the data stack (`Operation.data_eq`).
  Both are one statement about one operation, carried along a course.
-/
namespace WordStack

open Machine Relation

/-- A definition is open exactly while compiling, and nothing is collected otherwise. -/
structure Machine.Disciplined (m : Machine) : Prop where
  pending : m.mode = .compiling ↔ m.pending.isSome
  empty : m.mode = .interpreting → m.buffer = []

variable {m n : Machine} {ms : List Machine}

namespace Machine.Disciplined

theorem fresh : Disciplined .fresh where
  pending := ⟨fun h => (nomatch h), fun h => (nomatch h)⟩
  empty _ := rfl

theorem withActive (h : m.Disciplined) (vs : List Value) : (m.withActive vs).Disciplined := by
  cases hm : m.mode with
  | interpreting =>
    rw [withActive_of_interpreting hm]
    exact ⟨h.pending, h.empty⟩
  | compiling =>
    rw [withActive_of_compiling hm]
    refine ⟨h.pending, fun hi => ?_⟩
    cases hm.symm.trans hi

theorem change (h : m.Disciplined) (hc : Change m n) : n.Disciplined := by
  cases hc with
  | active vs => exact h.withActive vs
  | opened name l => exact ⟨⟨fun _ => rfl, fun _ => rfl⟩, fun hi => (nomatch hi)⟩
  | closed hp => exact ⟨⟨fun hc => (nomatch hc), fun hs => (nomatch hs)⟩, fun _ => rfl⟩
  | collected w hm =>
    refine ⟨h.pending, fun hi => ?_⟩
    cases hm.symm.trans hi
  | allocated | stored | written | word | moved | noted | replied => exact ⟨h.pending, h.empty⟩

theorem altered (h : m.Disciplined) (ha : Alters m n) : n.Disciplined := by
  cases ha with
  | active vs => exact h.withActive vs
  | opened name l => exact h.change (.opened name l)
  | read | allocated | stored | written | defined => exact ⟨h.pending, h.empty⟩

theorem stopCompiling (h : m.Disciplined) : (left (Machine.stopCompiling m)).Disciplined := by
  cases hp : m.pending with
  | none =>
    rw [stopCompiling_of_none hp]
    exact h
  | some p =>
    rw [left_stopCompiling hp]
    exact (h.change (.closed hp)).change (.word _ _)

theorem builtIn (h : m.Disciplined) (b : BuiltIn) : (left (b.run m)).Disciplined := by
  by_cases hend : b = .endDefinition
  · subst hend
    have hrun : left (BuiltIn.endDefinition.run m) = left (Machine.stopCompiling m) :=
      left_discard _ m
    rw [hrun]
    exact h.stopCompiling
  · have halters := alters_builtIn hend m
    generalize left (b.run m) = n at halters
    induction halters with
    | refl => exact h
    | tail _ hlast ih => exact ih.altered hlast

theorem operation (h : m.Disciplined) (ho : Operation m n) : n.Disciplined := by
  cases ho with
  | change hc => exact h.change hc
  | builtIn b => exact h.builtIn b
  | look | read | enter | leave | sink | observe => exact ⟨h.pending, h.empty⟩

end Machine.Disciplined

/-! ## The data stack while compiling -/

theorem Change.data_eq (h : Change m n) (hmode : m.mode = .compiling) : n.data = m.data := by
  cases h with
  | active vs => rw [withActive_of_compiling hmode]
  | _ => rfl

theorem Alters.of_compiling (h : Alters m n) (hmode : m.mode = .compiling) :
    n.mode = .compiling ∧ n.data = m.data := by
  cases h with
  | active vs =>
    rw [withActive_of_compiling hmode]
    exact ⟨hmode, rfl⟩
  | opened => exact ⟨rfl, rfl⟩
  | read | allocated | stored | written | defined => exact ⟨hmode, rfl⟩

theorem data_builtIn (b : BuiltIn) (hmode : m.mode = .compiling) : (left (b.run m)).data = m.data := by
  by_cases hend : b = .endDefinition
  · subst hend
    have hrun : left (BuiltIn.endDefinition.run m) = left (stopCompiling m) := left_discard _ m
    rw [hrun]
    cases hp : m.pending with
    | none => rw [stopCompiling_of_none hp, left_fail]
    | some p => rw [left_stopCompiling hp]; rfl
  · have halters := alters_builtIn hend m
    have hboth : (left (b.run m)).mode = .compiling ∧ (left (b.run m)).data = m.data := by
      generalize left (b.run m) = n at halters
      induction halters with
      | refl => exact ⟨hmode, rfl⟩
      | tail _ hlast ih =>
        obtain ⟨hmode, hdata⟩ := hlast.of_compiling ih.1
        exact ⟨hmode, hdata.trans ih.2⟩
    exact hboth.2

/-- No operation on a machine with an open definition touches the data stack. -/
theorem Operation.data_eq (h : Operation m n) (hmode : m.mode = .compiling) :
    n.data = m.data := by
  cases h with
  | change hc => exact hc.data_eq hmode
  | builtIn b => exact data_builtIn b hmode
  | look | read | enter | leave | sink | observe => rfl

theorem Course.data_eq (h : Course m ms n) (hmode : ∀ k ∈ m :: ms, k.mode = .compiling) :
    ∀ k ∈ ms, k.data = m.data := by
  induction h with
  | nil => exact fun _ hk => absurd hk List.not_mem_nil
  | cons first _ ih =>
    have hfirst := first.data_eq (hmode _ List.mem_cons_self)
    have hrest := ih fun k hk => hmode k (List.mem_cons_of_mem _ hk)
    intro k hk
    rcases List.mem_cons.mp hk with rfl | hk
    · exact hfirst
    · exact (hrest k hk).trans hfirst

/-! ## Sessions -/

theorem course_steps (script : List Step) {m : Machine} (h : Course .fresh ms m) :
    ∀ observed ∈ Session.steps m script, ∃ ns, Course .fresh ns observed.2 := by
  induction script generalizing m ms with
  | nil => exact fun _ hx => absurd hx List.not_mem_nil
  | cons s script ih =>
    have hstep := h.append (Session.course_step m s)
    intro observed hmem
    rcases List.mem_cons.mp hmem with rfl | hmem
    · exact ⟨_, hstep⟩
    · exact ih hstep observed hmem

/-- On every machine that operations lead to, a definition is open exactly while compiling and
nothing is collected otherwise. Operations that leave a definition open all along leave the data
stack alone. What an action or a word does, the runs and host words within it included, is a course
of such operations, and a session is one course from the machine with the built-in words. -/
theorem mode_discipline :
    (∀ ms n, Course .fresh ms n → ∀ m ∈ .fresh :: ms,
      (m.mode = .compiling ↔ m.pending.isSome) ∧ (m.mode = .interpreting → m.buffer = [])) ∧
    (∀ m ms n, Course m ms n → (∀ k ∈ m :: ms, k.mode = .compiling) → ∀ k ∈ ms, k.data = m.data) ∧
    (∀ depth m,
      (∀ action, Course m (performCourse depth action m) (left (perform (.nested depth) action m))) ∧
      ∀ l w, Course m (wordCourse (.nested depth) (hostCourse depth) l w m)
        (left (execute (.nested depth) l w m))) ∧
    ∀ script, ∀ observed ∈ Session.run script, ∃ ms, Course .fresh ms observed.2 := by
  refine ⟨fun ms n h m hm => ?_, fun m ms n h hmode => h.data_eq hmode,
    fun depth m => ⟨fun action => course_perform depth action m, fun l w => ?_⟩,
    fun script => course_steps script (.nil .fresh)⟩
  · have hdisciplined : m.Disciplined := by
      rcases List.mem_cons.mp hm with rfl | hm
      · exact .fresh
      · exact h.forall_mem (fun _ _ hk ho => hk.operation ho) .fresh m hm
    exact ⟨hdisciplined.pending, hdisciplined.empty⟩
  · exact course_execute (follows_nested depth) l w m

/-- A host word that clears the stack and pushes a count, run while a definition is open. -/
theorem mode_discipline_clearing : ∃ m₀ m,
    m₀ = left (perform (.nested 1) (.define "WIPE" true [.clear, .push [.count 1]]) .fresh) ∧
    m = left (perform (.nested 1) (.run "s" "DEPTH : SQ DUP") m₀) ∧
    m.data.length = 1 ∧
    (∀ k ∈ m :: performCourse 1 (.run "t" "WIPE DUP WIPE") m, k.mode = .compiling) ∧
    (∀ k ∈ performCourse 1 (.run "t" "WIPE DUP WIPE") m, k.pending.isSome ∧ k.data = m.data) := by
  obtain ⟨hdiscipline, hdata, hperform, -⟩ := mode_discipline
  have hdefine := (hperform 1 .fresh).1 (.define "WIPE" true [.clear, .push [.count 1]])
  have hopen := hdefine.append ((hperform 1 _).1 (.run "s" "DEPTH : SQ DUP"))
  generalize hm : left (perform (.nested 1) (.run "s" "DEPTH : SQ DUP") _) = m at hopen
  have hrun := (hperform 1 m).1 (.run "t" "WIPE DUP WIPE")
  have hmode : ∀ k ∈ m :: performCourse 1 (.run "t" "WIPE DUP WIPE") m, k.mode = .compiling := by
    subst hm
    decide +kernel
  refine ⟨_, m, rfl, hm.symm, ?_, hmode, fun k hk => ⟨?_, ?_⟩⟩
  · subst hm
    decide +kernel
  · have hboth := hdiscipline _ _ (hopen.append hrun) k
      (List.mem_cons_of_mem _ (List.mem_append_right _ hk))
    exact hboth.1.mp (hmode k (List.mem_cons_of_mem _ hk))
  · exact hdata m _ _ hrun hmode k hk

end WordStack
