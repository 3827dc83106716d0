import Mathlib.Data.List.Sort

/-! Walking a list with a step that may fail, or that only one member answers, and telling
ordered lists by their members. -/
namespace MapOverlay.Traversal

variable {Item Result Failure : Type}

/-- Two steps succeed exactly if the first does and then the second does with its result. -/
theorem bind_eq_ok_iff {Next : Type} {step : Except Failure Result}
    {next : Result → Except Failure Next} {final : Next} :
    step >>= next = .ok final ↔ ∃ result, step = .ok result ∧ next result = .ok final := by
  cases step <;> simp [bind, Except.bind]

/-- Two steps fail if the first does, or if the second does after the first has succeeded. The
failure is that of the step in question. -/
theorem bind_eq_error_iff {Next : Type} {step : Except Failure Result}
    {next : Result → Except Failure Next} {failure : Failure} :
    step >>= next = .error failure ↔
      step = .error failure ∨ ∃ result, step = .ok result ∧ next result = .error failure := by
  cases step <;> simp [bind, Except.bind]

/-- What is done with the result of a step that may fail cannot fail itself, so the outcome is
known from the result. -/
theorem bind_pure_eq_ok_iff {Next : Type} {step : Except Failure Result} {finish : Result → Next}
    {final : Next} :
    (step >>= fun result => pure (finish result)) = .ok final ↔
      ∃ result, step = .ok result ∧ finish result = final := by
  cases step <;> simp [bind, Except.bind, pure, Except.pure]

theorem exists_bind_pure_eq_ok_iff {Next : Type} {step : Except Failure Result}
    {finish : Result → Next} :
    (∃ final, (step >>= fun result => pure (finish result)) = .ok final) ↔
      ∃ result, step = .ok result := by
  cases step <;> simp [bind, Except.bind, pure, Except.pure]

theorem bind_pure_eq_error_iff {Next : Type} {step : Except Failure Result}
    {finish : Result → Next} {failure : Failure} :
    (step >>= fun result => pure (finish result)) = .error failure ↔ step = .error failure := by
  cases step <;> simp [bind, Except.bind, pure, Except.pure]

/-- A step that fails in the middle keeps the state it failed with. Only a step that succeeds
passes its state on. -/
theorem run_bind {State Next : Type} (step : ExceptT Failure (StateM State) Result)
    (next : Result → ExceptT Failure (StateM State) Next) (state : State) :
    (step >>= next).run.run state =
      match step.run.run state with
      | (.ok result, later) => (next result).run.run later
      | (.error failure, later) => (.error failure, later) := by
  rw [ExceptT.run_bind, StateT.run_bind]
  generalize step.run.run state = stepped
  obtain ⟨result, later⟩ := stepped
  cases result <;> rfl

/-- A walk succeeds exactly if every item does, and its answers are those of the items, one for
each and in their order. -/
theorem mapM_eq_ok_iff {visit : Item → Except Failure Result} {items : List Item}
    {results : List Result} :
    items.mapM visit = .ok results ↔ items.map visit = results.map .ok := by
  induction items generalizing results with
  | nil => cases results <;> simp [pure, Except.pure]
  | cons first rest ih =>
      rw [List.mapM_cons, List.map_cons]
      cases hFirst : visit first with
      | error failure => cases results <;> simp [bind, Except.bind]
      | ok result =>
          cases hRest : rest.mapM visit with
          | error failure => cases results <;> simp [bind, Except.bind, ← ih, hRest]
          | ok others => cases results <;> simp [bind, Except.bind, pure, Except.pure, ← ih, hRest]

/-- A walk ends at the first item that fails, with the failure of that item. The items before
it have succeeded, and those after it are not visited. -/
theorem mapM_eq_error_iff {visit : Item → Except Failure Result} {items : List Item}
    {failure : Failure} :
    items.mapM visit = .error failure ↔
      ∃ before item after, items = before ++ item :: after ∧
        (∀ earlier ∈ before, ∃ result, visit earlier = .ok result) ∧
        visit item = .error failure := by
  induction items with
  | nil => simp [pure, Except.pure]
  | cons first rest ih =>
      rw [List.mapM_cons]
      constructor
      · intro hFails
        cases hFirst : visit first with
        | error cause =>
            have hCause : cause = failure := by simpa [hFirst, bind, Except.bind] using hFails
            exact ⟨[], first, rest, rfl, by simp, hCause ▸ hFirst⟩
        | ok result =>
            have hRest : rest.mapM visit = .error failure := by
              cases hRest : rest.mapM visit with
              | error cause => simpa [hFirst, hRest, bind, Except.bind] using hFails
              | ok others => simp [hFirst, hRest, bind, Except.bind, pure, Except.pure] at hFails
            obtain ⟨before, item, after, hSplit, hBefore, hItem⟩ := ih.mp hRest
            refine ⟨first :: before, item, after, by rw [hSplit, List.cons_append], ?_, hItem⟩
            intro earlier hEarlier
            rcases List.mem_cons.mp hEarlier with rfl | hEarlier
            · exact ⟨result, hFirst⟩
            · exact hBefore earlier hEarlier
      · rintro ⟨before, item, after, hSplit, hBefore, hItem⟩
        cases before with
        | nil =>
            obtain ⟨rfl, rfl⟩ := List.cons.inj hSplit
            simp [hItem, bind, Except.bind]
        | cons second before =>
            obtain ⟨rfl, hRest⟩ := List.cons.inj hSplit
            obtain ⟨result, hFirst⟩ := hBefore first List.mem_cons_self
            have hTail := ih.mpr ⟨before, item, after, hRest,
              fun earlier hEarlier => hBefore earlier (List.mem_cons_of_mem _ hEarlier), hItem⟩
            simp [hFirst, hTail, bind, Except.bind]

/-- A walk that succeeds has succeeded at each item, since it would have ended at one that
fails. -/
theorem exists_of_mapM_eq_ok {visit : Item → Except Failure Result} {items : List Item}
    {results : List Result} (hWalk : items.mapM visit = .ok results) {item : Item}
    (hItem : item ∈ items) : ∃ result, visit item = .ok result := by
  have hAnswer : visit item ∈ items.map visit := List.mem_map_of_mem hItem
  rw [mapM_eq_ok_iff.mp hWalk, List.mem_map] at hAnswer
  obtain ⟨result, _, hResult⟩ := hAnswer
  exact ⟨result, hResult.symm⟩

theorem exists_mapM_eq_ok {visit : Item → Except Failure Result} {items : List Item}
    (hVisit : ∀ item ∈ items, ∃ result, visit item = .ok result) :
    ∃ results, items.mapM visit = .ok results := by
  cases hWalk : items.mapM visit with
  | ok results => exact ⟨results, rfl⟩
  | error failure =>
      obtain ⟨before, item, after, rfl, _, hFails⟩ := mapM_eq_error_iff.mp hWalk
      obtain ⟨result, hResult⟩ := hVisit item (by simp)
      exact absurd (hResult.symm.trans hFails) nofun

/-- One item that fails is enough for the failure of a walk, and if no item fails in another way
the walk does not either. -/
theorem mapM_eq_error_of_mem {visit : Item → Except Failure Result} {items : List Item}
    {item : Item} {failure : Failure} (hItem : item ∈ items) (hFails : visit item = .error failure)
    (hOnly : ∀ other ∈ items, ∀ cause, visit other = .error cause → cause = failure) :
    items.mapM visit = .error failure := by
  cases hWalk : items.mapM visit with
  | ok results =>
      obtain ⟨result, hResult⟩ := exists_of_mapM_eq_ok hWalk hItem
      rw [hFails] at hResult
      cases hResult
  | error cause =>
      obtain ⟨before, other, after, rfl, _, hOther⟩ := mapM_eq_error_iff.mp hWalk
      rw [hOnly other (by simp) cause hOther]

/-- Walks whose steps fail alike fail alike, whatever their steps answer otherwise. Their first
failures are at the same item. -/
theorem mapM_eq_error_congr {Other : Type} {first : Item → Except Failure Result}
    {second : Item → Except Failure Other}
    (hSame : ∀ item failure, first item = .error failure ↔ second item = .error failure)
    {items : List Item} {failure : Failure} :
    items.mapM first = .error failure ↔ items.mapM second = .error failure := by
  have hOk (item : Item) :
      (∃ result, first item = .ok result) ↔ ∃ result, second item = .ok result := by
    have hFails := hSame item
    cases hFirst : first item with
    | error cause => simp [(hFails cause).mp hFirst]
    | ok result =>
        cases hSecond : second item with
        | error cause => simp [hFirst, hSecond] at hFails
        | ok other => simp
  simp only [mapM_eq_error_iff, hOk, hSame]

/-- To act on each answer as it comes is to act on all of them in the end, for an action that
cannot fail itself. -/
theorem foldlM_act {State : Type} (visit : Item → Except Failure Result)
    (act : State → Result → State) (items : List Item) (state : State) :
    (items.foldlM (fun state item => do return act state (← visit item)) state) =
      (do return (← items.mapM visit).foldl act state) := by
  induction items generalizing state with
  | nil => rfl
  | cons first rest ih =>
      rw [List.foldlM_cons, List.mapM_cons]
      cases hFirst : visit first with
      | error failure => rfl
      | ok result =>
          simp only [bind_assoc, pure_bind, List.foldl_cons] at ih ⊢
          exact ih (act state result)

/-- If one item of a list without repetition contributes something and no other does,
the whole list contributes what that item does. -/
theorem flatMap_eq_of_only {items : List Item} (hNodup : items.Nodup) {chosen : Item}
    (hMem : chosen ∈ items) {pick : Item → List Result}
    (hOther : ∀ item ∈ items, item ≠ chosen → pick item = []) :
    items.flatMap pick = pick chosen := by
  obtain ⟨before, after, rfl⟩ := List.append_of_mem hMem
  rw [List.nodup_middle, List.nodup_cons, List.mem_append] at hNodup
  have hBefore : before.flatMap pick = [] := by
    rw [List.flatMap_eq_nil_iff]
    intro item hItem
    apply hOther item (List.mem_append_left _ hItem)
    rintro rfl
    exact hNodup.1 (Or.inl hItem)
  have hAfter : after.flatMap pick = [] := by
    rw [List.flatMap_eq_nil_iff]
    intro item hItem
    apply hOther item (List.mem_append_right _ (List.mem_cons_of_mem _ hItem))
    rintro rfl
    exact hNodup.1 (Or.inr hItem)
  rw [List.flatMap_append, List.flatMap_cons, hBefore, hAfter, List.nil_append, List.append_nil]

/-- Results that carry the item they come from can be sorted out again. What comes from one
item of a list without repetition is what that item contributes. -/
theorem filter_flatMap_of_key [DecidableEq Item] {items : List Item} (hNodup : items.Nodup)
    {pick : Item → List Result} {key : Result → Item}
    (hKey : ∀ item, ∀ result ∈ pick item, key result = item) (chosen : Item) :
    (items.flatMap pick).filter (fun result => key result = chosen) =
      if chosen ∈ items then pick chosen else [] := by
  have hOther : ∀ item ∈ items, item ≠ chosen →
      (pick item).filter (fun result => key result = chosen) = [] := by
    intro item _ hNe
    rw [List.filter_eq_nil_iff]
    intro result hResult hChosen
    exact hNe ((hKey item result hResult).symm.trans (of_decide_eq_true hChosen))
  rw [List.filter_flatMap]
  by_cases hMem : chosen ∈ items
  · rw [flatMap_eq_of_only hNodup hMem hOther, if_pos hMem, List.filter_eq_self]
    intro result hResult
    exact decide_eq_true (hKey chosen result hResult)
  · rw [if_neg hMem, List.flatMap_eq_nil_iff]
    intro item hItem
    apply hOther item hItem
    rintro rfl
    exact hMem hItem

/-- Items that a test leaves out may as well be visited without doing anything. -/
theorem forM_filter {m : Type → Type} [Monad m] [LawfulMonad m] (items : List Item)
    (test : Item → Bool) (visit : Item → m Unit) :
    (items.filter test).forM visit =
      items.forM fun item => if test item then visit item else pure () := by
  induction items with
  | nil => rfl
  | cons first rest ih =>
      simp only [List.forM_eq_forM] at ih ⊢
      rw [List.filter_cons, List.forM_cons]
      cases hTest : test first with
      | true => simp only [if_true, List.forM_cons, ih]
      | false => simp only [Bool.false_eq_true, if_false, pure_bind, ih]

/-- An ascending list is determined by its members, as there is one order to put them in. -/
theorem eq_of_ordered {Key : Type} [Ord Key] [Std.TransOrd Key] {first second : List Key}
    (hFirst : first.Pairwise fun left right => compare left right = .lt)
    (hSecond : second.Pairwise fun left right => compare left right = .lt)
    (hMem : ∀ key, key ∈ first ↔ key ∈ second) : first = second := by
  have hIrrefl : Std.Irrefl fun left right : Key => compare left right = .lt := by
    constructor
    intro key hLess
    rw [Std.ReflOrd.compare_self] at hLess
    cases hLess
  have hAntisymm : Std.Antisymm fun left right : Key => compare left right = .lt := by
    constructor
    intro left right hLess hMore
    rw [Std.OrientedOrd.eq_swap, hMore] at hLess
    cases hLess
  exact hFirst.eq_of_mem_iff hSecond hMem

end MapOverlay.Traversal
