import PacketGuard.Lib.Outcome

/-! Loops over the tokens of a line whose body may take some of the tokens that
follow: `for (i = 0; i < tokens.size(); ++i)` with further `++i` in the body.
What every turn of the body keeps, the loop keeps, and it fails only as a turn
does. -/
namespace PacketGuard.Lib

variable {State Token Err : Type}
  (body : State → Token → List Token → Except Err (State × Nat))

/-- The body sees the state, the token and what follows it, and says how many of
the following tokens it took; `taken` of them are still to be passed over. -/
def scanTokens (s : State) (taken : Nat) : List Token → Except Err State
  | [] => .ok s
  | token :: rest =>
    match taken with
    | taken + 1 => scanTokens s taken rest
    | 0 =>
      match body s token rest with
      | .error e => .error e
      | .ok (s, taken) => scanTokens s taken rest

variable {body}

/-- **Loop rule**, for tokens that have a property. -/
theorem scanTokens_outcome_of_tokens {Inv : State → Prop} {P : Err → Prop} {Tok : Token → Prop}
    (step : ∀ s token rest, Inv s → (∀ t ∈ token :: rest, Tok t) →
      Outcome (fun r => Inv r.1) P (body s token rest))
    {s : State} (hs : Inv s) (taken : Nat) {tokens : List Token} (htokens : ∀ t ∈ tokens, Tok t) :
    Outcome Inv P (scanTokens body s taken tokens) := by
  induction tokens generalizing s taken with
  | nil => exact hs
  | cons token rest ih =>
    have hrest : ∀ t ∈ rest, Tok t := fun t ht => htokens t (List.mem_cons_of_mem _ ht)
    cases taken with
    | succ taken => exact ih hs taken hrest
    | zero =>
      have hturn := step s token rest hs htokens
      rw [scanTokens]
      rcases hbody : body s token rest with e | ⟨s', taken⟩
      · exact hturn.of_eq_error hbody
      · exact ih (hturn.of_eq_ok hbody) taken hrest

/-- **Loop rule.** -/
theorem scanTokens_outcome {Inv : State → Prop} {P : Err → Prop}
    (step : ∀ s token rest, Inv s → Outcome (fun r => Inv r.1) P (body s token rest))
    {s : State} (hs : Inv s) (taken : Nat) (tokens : List Token) :
    Outcome Inv P (scanTokens body s taken tokens) :=
  scanTokens_outcome_of_tokens (fun s token rest hs _ => step s token rest hs) hs taken
    fun _ _ => trivial

/-- What the turns of the loop call for, turn by turn, up to the one that fails. -/
def scanCalls {Call : Type} (body : State → Token → List Token → Except Err (State × Nat))
    (calls : Token → List Token → List Call) (s : State) (taken : Nat) : List Token → List Call
  | [] => []
  | token :: rest =>
    match taken with
    | taken + 1 => scanCalls body calls s taken rest
    | 0 =>
      calls token rest ++
        match body s token rest with
        | .error _ => []
        | .ok (s, taken) => scanCalls body calls s taken rest

/-- What every turn's calls have, all calls have. -/
theorem forall_mem_scanCalls {Call : Type} {calls : Token → List Token → List Call}
    {P : Call → Prop}
    {Tok : Token → Prop}
    (step : ∀ token rest, (∀ t ∈ token :: rest, Tok t) → ∀ call ∈ calls token rest, P call)
    (s : State) (taken : Nat) {tokens : List Token} (htokens : ∀ t ∈ tokens, Tok t) :
    ∀ call ∈ scanCalls body calls s taken tokens, P call := by
  induction tokens generalizing s taken with
  | nil => exact fun call hcall => absurd hcall List.not_mem_nil
  | cons token rest ih =>
    have hrest : ∀ t ∈ rest, Tok t := fun t ht => htokens t (List.mem_cons_of_mem _ ht)
    intro call hcall
    cases taken with
    | succ taken => exact ih s taken hrest call hcall
    | zero =>
      rw [scanCalls] at hcall
      rcases List.mem_append.mp hcall with hcall | hcall
      · exact step token rest htokens call hcall
      · split at hcall
        · cases hcall
        · exact ih _ _ hrest call hcall

/-- A call that fails is one of a turn that fails, and the loop with it. -/
theorem scanTokens_toOption_of_call {Call : Type} {calls : Token → List Token → List Call}
    {Fails : Call → Prop}
    (turn : ∀ s token rest, ∀ call ∈ calls token rest, Fails call →
      (body s token rest).toOption = none)
    {s : State} {taken : Nat} {tokens : List Token} {call : Call}
    (hcall : call ∈ scanCalls body calls s taken tokens) (hfails : Fails call) :
    (scanTokens body s taken tokens).toOption = none := by
  induction tokens generalizing s taken with
  | nil => cases hcall
  | cons token rest ih =>
    cases taken with
    | succ taken => exact ih hcall
    | zero =>
      rw [scanCalls] at hcall
      rw [scanTokens]
      cases hbody : body s token rest with
      | error e => rfl
      | ok next =>
        rw [hbody] at hcall
        rcases List.mem_append.mp hcall with hcall | hcall
        · have hturn := turn s token rest call hcall hfails
          rw [hbody] at hturn
          cases hturn
        · exact ih hcall

/-! ## Groups of two tokens -/

/-- Where every group is a flag with its value, which are checked whatever the state is, the loop
checks all groups and applies their updates. -/
theorem scanTokens_groups {Group : Type} {flag value : Group → Token}
    {check : Group → Except Err Unit}
    {update : State → Group → State}
    (turn : ∀ s g rest, body s (flag g) (value g :: rest) = (check g).map fun _ => (update s g, 1))
    (s : State) (groups : List Group) :
    scanTokens body s 0 (groups.flatMap fun g => [flag g, value g]) =
      (forM groups check : Except Err Unit).map fun _ => groups.foldl update s := by
  induction groups generalizing s with
  | nil => rfl
  | cons g groups ih =>
    rw [List.flatMap_cons, List.cons_append, List.cons_append, List.nil_append, scanTokens, turn,
      List.forM_cons]
    cases hcheck : check g with
    | error e => rfl
    | ok passed => exact ih (update s g)

theorem forM_eq_ok_iff {Group : Type} {check : Group → Except Err Unit} {groups : List Group} :
    (forM groups check : Except Err Unit) = .ok () ↔ ∀ g ∈ groups, check g = .ok () := by
  induction groups with
  | nil => exact iff_of_true rfl fun g hg => absurd hg List.not_mem_nil
  | cons g groups ih =>
    rw [List.forM_cons, List.forall_mem_cons, ← ih]
    cases hcheck : check g with
    | error e =>
      constructor
      · intro h
        cases h
      · intro h
        cases h.1
    | ok passed => exact (and_iff_right rfl).symm

/-! ## Phrases -/

/-- The tokens that were taken are passed over. -/
theorem scanTokens_taken (s : State) (args rest : List Token) :
    scanTokens body s args.length (args ++ rest) = scanTokens body s 0 rest := by
  induction args with
  | nil => rfl
  | cons arg args ih => exact ih

/-- Where every phrase is a word with what it takes, the loop applies the updates of all phrases. -/
theorem scanTokens_phrases {Phrase : Type} {word : Phrase → Token} {args : Phrase → List Token}
    {update : State → Phrase → State}
    (turn : ∀ s p rest, body s (word p) (args p ++ rest) = .ok (update s p, (args p).length))
    (s : State) (phrases : List Phrase) :
    scanTokens body s 0 (phrases.flatMap fun p => word p :: args p) =
      .ok (phrases.foldl update s) := by
  induction phrases generalizing s with
  | nil => rfl
  | cons p phrases ih =>
    rw [List.flatMap_cons, List.cons_append, scanTokens, turn]
    simp only
    rw [scanTokens_taken, ih, List.foldl_cons]

/-! ## What a loop leaves behind -/

/-- A view of the state that the last call of a turn sets, the last call of the loop sets. -/
theorem scanTokens_read {Call View : Type} {calls : Token → List Token → List Call}
    {read : State → View}
    {value : Call → View}
    (turn : ∀ s token rest s' taken, body s token rest = .ok (s', taken) →
      read s' = ((calls token rest).getLast?.map value).getD (read s))
    {s s' : State} {taken : Nat} {tokens : List Token}
    (h : scanTokens body s taken tokens = .ok s') :
    read s' = ((scanCalls body calls s taken tokens).getLast?.map value).getD (read s) := by
  induction tokens generalizing s taken with
  | nil =>
    cases h
    rfl
  | cons token rest ih =>
    cases taken with
    | succ taken => exact ih h
    | zero =>
      rw [scanTokens] at h
      rw [scanCalls]
      cases hbody : body s token rest with
      | error e =>
        rw [hbody] at h
        cases h
      | ok next =>
        obtain ⟨s₁, taken⟩ := next
        rw [hbody] at h
        rw [ih h, turn s token rest s₁ taken hbody]
        simp only
        rw [List.getLast?_append]
        cases (scanCalls body calls s₁ taken rest).getLast? <;> rfl

/-- Behind a token that a turn passes over a turn starts, when no turn takes more than one token. -/
theorem exists_turn_behind {Call : Type} {calls : Token → List Token → List Call}
    (one : ∀ s token rest s' taken, body s token rest = .ok (s', taken) → taken ≤ 1) {skip : Token}
    (passed : ∀ s rest, body s skip rest = .ok (s, 0)) {s s' : State} {taken : Nat}
    (htaken : taken ≤ 1)
    {before tail : List Token} (h : scanTokens body s taken (before ++ skip :: tail) = .ok s') :
    ∃ s₁, scanTokens body s₁ 0 tail = .ok s' ∧
      scanCalls body calls s₁ 0 tail <:+ scanCalls body calls s taken (before ++ skip :: tail) := by
  induction before generalizing s taken with
  | nil =>
    rw [List.nil_append] at h ⊢
    cases taken with
    | succ taken =>
      have hzero : taken = 0 := by omega
      subst hzero
      exact ⟨s, h, List.suffix_refl _⟩
    | zero =>
      rw [scanTokens, passed] at h
      rw [scanCalls, passed]
      exact ⟨s, h, List.suffix_append _ _⟩
  | cons token before ih =>
    rw [List.cons_append] at h ⊢
    cases taken with
    | succ taken => exact ih (by omega) h
    | zero =>
      rw [scanTokens] at h
      rw [scanCalls]
      cases hbody : body s token (before ++ skip :: tail) with
      | error e =>
        rw [hbody] at h
        cases h
      | ok next =>
        obtain ⟨s₁, taken⟩ := next
        rw [hbody] at h
        obtain ⟨s₂, hrun, hcalls⟩ := ih (one _ _ _ _ _ hbody) h
        exact ⟨s₂, hrun, hcalls.trans (List.suffix_append _ _)⟩

end PacketGuard.Lib
