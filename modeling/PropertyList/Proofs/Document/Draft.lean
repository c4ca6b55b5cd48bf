import PropertyList.Document.Automaton
import PropertyList.Proofs.Tree.Order

/-!
# Documents in the making

What has been read of a document is a *draft*: the containers that are open, each with a hole where
the value being read will stand. A draft says which tokens may come next and what becomes of it,
and it knows nothing of objects and references.

## Main definitions

* `Hole`, `Draft`
* `Draft.advance`, the draft after another token; `Advances` lists the ways to go on
* `Draft.react`, `Draft.run`, reading tokens with the errors that arise
* `Draft.trees`, `Draft.Unique`, the values read so far

## Main results

* `Draft.advance_eq_some_iff`
* `Draft.Advances.unique_iff` : what it takes for keys to stay unique.
-/

namespace PropertyList

/-- A container that lacks the item or the value that comes next. -/
inductive Hole where
  | item (before : List Tree)
  | entry (before : List (Text × Tree)) (key : Text)

/-- The container with the hole filled. -/
def Hole.plug : Hole → Tree → Tree
  | item before, t => .array (before ++ [t])
  | entry before key, t => .dict (before ++ [(key, t)])

/-- The bracket that closes the container. -/
def Hole.bracket : Hole → Mark
  | item _ => .closeParen
  | entry _ _ => .closeBrace

/-- What has been read of a document. The holes are those of the open containers around the place
of reading, the innermost first. -/
inductive Draft where
  /-- A value is to follow. -/
  | value (holes : List Hole)
  /-- A key or the end of a dictionary is to follow. -/
  | keyOrClose (entries : List (Text × Tree)) (holes : List Hole)
  /-- A key has been read. -/
  | equals (entries : List (Text × Tree)) (key : Text) (holes : List Hole)
  /-- An item or the end of an array is to follow. -/
  | itemOrClose (items : List Tree) (holes : List Hole)
  /-- A value is complete and stands in the first hole. -/
  | filled (holes : List Hole) (t : Tree)
  /-- The semicolon behind the root has been read. -/
  | ending (root : Tree)
  | done (root : Tree)

namespace Draft

/-! ### Reading -/

/-- The draft after the first token of a value that stands in the first hole. -/
def start (holes : List Hole) : Token → Option Draft
  | .word s | .quoted s => some (filled holes (.string s))
  | .mark .openBrace => some (keyOrClose [] holes)
  | .mark .openParen => some (itemOrClose [] holes)
  | _ => none

/-- The draft after another token. There is none if the token cannot follow. -/
def advance : Draft → Token → Option Draft
  | value holes, t => start holes t
  | keyOrClose entries holes, .mark .closeBrace => some (filled holes (.dict entries))
  | keyOrClose entries holes, .word key | keyOrClose entries holes, .quoted key =>
    some (equals entries key holes)
  | equals entries key holes, .mark .equals => some (value (.entry entries key :: holes))
  | itemOrClose items holes, .mark .closeParen => some (filled holes (.array items))
  | itemOrClose items holes, t => start (.item items :: holes) t
  | filled [] t, .mark .semicolon => some (ending t)
  | filled [] t, .ending => some (done t)
  | filled (.item before :: holes) t, .mark .comma => some (itemOrClose (before ++ [t]) holes)
  | filled (.item before :: holes) t, .mark .closeParen =>
    some (filled holes (.array (before ++ [t])))
  | filled (.entry before key :: holes) t, .mark .semicolon =>
    some (keyOrClose (before ++ [(key, t)]) holes)
  | filled (.entry before key :: holes) t, .mark .closeBrace =>
    some (filled holes (.dict (before ++ [(key, t)])))
  | ending root, .ending => some (done root)
  | _, _ => none

/-- The key of an entry just completed that its dictionary has already. -/
def clash? : Draft → Option Text
  | filled (.entry before key :: _) _ => if key ∈ before.map (·.1) then some key else none
  | _ => none

/-- What a draft waits for. -/
def state : Draft → State
  | value _ => .value
  | keyOrClose _ _ => .keyOrClose
  | equals _ _ _ => .equals
  | itemOrClose _ _ => .itemOrClose
  | filled [] _ => .documentEnd
  | filled (.item _ :: _) _ => .itemEnd
  | filled (.entry _ _ :: _) _ => .entryEnd
  | ending _ => .ending
  | done _ => .done

/-- What a draft waits for where a token cannot follow. -/
def missing (d : Draft) : State :=
  if d.state = .itemOrClose then .value else d.state

/-- The draft, or the error that the token at `position` gives rise to by completing an entry. -/
def checked (d : Draft) (position : Position) : Except ParseError Draft :=
  match d.clash? with
  | some key => .error (.duplicateKey key position)
  | none => .ok d

/-- The draft after another token, or the error that arises from it. -/
def react (d : Draft) (t : PlacedToken) : Except ParseError Draft :=
  match d.advance t.token with
  | some d' => d'.checked t.position
  | none => .error (.unexpected d.missing t)

/-- The draft after a sequence of tokens, or the first error. -/
def run (d : Draft) : List PlacedToken → Option LexError → Except ParseError Draft
  | [], none => .ok d
  | [], some e => .error (.lexical e)
  | t :: ts, error => do run (← d.react t) ts error

/-! ### The values held -/

end Draft

/-- The values that an open container stands for, the last one first: its own and the key of the
entry being read. -/
def Hole.trees : Hole → List Tree
  | item before => [.array before]
  | entry before key => [.string key, .dict before]

namespace Draft

/-- The values that have been read and are part of no other one yet, the last one first. -/
def trees : Draft → List Tree
  | value holes => holes.flatMap Hole.trees
  | keyOrClose entries holes => .dict entries :: holes.flatMap Hole.trees
  | equals entries key holes => .string key :: .dict entries :: holes.flatMap Hole.trees
  | itemOrClose items holes => .array items :: holes.flatMap Hole.trees
  | filled [] t => [t]
  | filled (hole :: holes) t => hole.plug t :: holes.flatMap Hole.trees
  | ending root | done root => [root]

/-- Whether no dictionary read so far has a key twice. -/
def Unique (d : Draft) : Prop :=
  ∀ t ∈ d.trees, t.UniqueKeys

/-! ### One token at a time -/

/-- The ways for a value in the first hole to start. -/
inductive Starts (holes : List Hole) : Token → Draft → Prop
  | string {t : Token} {s : Text} (h : t.string? = some s) :
      Starts holes t (filled holes (.string s))
  | dict : Starts holes (.mark .openBrace) (keyOrClose [] holes)
  | array : Starts holes (.mark .openParen) (itemOrClose [] holes)

/-- The ways for a draft to go on. -/
inductive Advances : Draft → Token → Draft → Prop
  | value {holes : List Hole} {t : Token} {d : Draft} (h : Starts holes t d) :
      Advances (value holes) t d
  | closeDict (entries : List (Text × Tree)) (holes : List Hole) :
      Advances (keyOrClose entries holes) (.mark .closeBrace) (filled holes (.dict entries))
  | key {t : Token} {key : Text} (h : t.string? = some key) (entries : List (Text × Tree))
      (holes : List Hole) : Advances (keyOrClose entries holes) t (equals entries key holes)
  | equals (entries : List (Text × Tree)) (key : Text) (holes : List Hole) :
      Advances (equals entries key holes) (.mark .equals) (value (.entry entries key :: holes))
  | closeArray (items : List Tree) (holes : List Hole) :
      Advances (itemOrClose items holes) (.mark .closeParen) (filled holes (.array items))
  | item {items : List Tree} {holes : List Hole} {t : Token} {d : Draft}
      (h : Starts (.item items :: holes) t d) : Advances (itemOrClose items holes) t d
  | comma (before : List Tree) (holes : List Hole) (v : Tree) :
      Advances (filled (.item before :: holes) v) (.mark .comma)
        (itemOrClose (before ++ [v]) holes)
  | semicolon (before : List (Text × Tree)) (key : Text) (holes : List Hole) (v : Tree) :
      Advances (filled (.entry before key :: holes) v) (.mark .semicolon)
        (keyOrClose (before ++ [(key, v)]) holes)
  | close (hole : Hole) (holes : List Hole) (v : Tree) :
      Advances (filled (hole :: holes) v) (.mark hole.bracket) (filled holes (hole.plug v))
  | rootSemicolon (root : Tree) : Advances (filled [] root) (.mark .semicolon) (ending root)
  | rootEnding (root : Tree) : Advances (filled [] root) .ending (done root)
  | ending (root : Tree) : Advances (ending root) .ending (done root)

theorem start_eq_some_iff {holes : List Hole} {t : Token} {d : Draft} :
    start holes t = some d ↔ Starts holes t d := by
  constructor
  · intro h
    unfold start at h
    split at h <;> cases h
    · exact .string rfl
    · exact .string rfl
    · exact .dict
    · exact .array
  · rintro (h | _ | _)
    · cases t <;> simp_all [Token.string?, start]
    · rfl
    · rfl

/-- A draft goes on in the ways listed and in no others. -/
theorem advance_eq_some_iff {d d' : Draft} {t : Token} :
    d.advance t = some d' ↔ Advances d t d' := by
  constructor
  · intro h
    unfold advance at h
    split at h
    · exact .value (start_eq_some_iff.1 h)
    all_goals try cases h
    · exact .closeDict _ _
    · exact .key rfl _ _
    · exact .key rfl _ _
    · exact .equals _ _ _
    · exact .closeArray _ _
    · exact .item (start_eq_some_iff.1 h)
    · exact .rootSemicolon _
    · exact .rootEnding _
    · exact .comma _ _ _
    · exact .close (.item _) _ _
    · exact .semicolon _ _ _ _
    · exact .close (.entry _ _) _ _
    · exact .ending _
  · intro h
    cases h with
    | value h => exact start_eq_some_iff.2 h
    | key h => cases t <;> simp_all [Token.string?, advance]
    | item h =>
      have hstart := start_eq_some_iff.2 h
      cases h with
      | string h => cases t <;> first | exact hstart | cases h
      | dict => rfl
      | array => rfl
    | close hole => cases hole <;> rfl
    | _ => rfl

/-! ### Keys -/

theorem unique_filled {holes : List Hole} {v : Tree}
    (hholes : ∀ t ∈ holes.flatMap Hole.trees, t.UniqueKeys) (hv : v.UniqueKeys) :
    (filled holes v).Unique ↔ (filled holes v).clash? = none := by
  match holes with
  | [] => simpa [Unique, trees, clash?] using hv
  | .item before :: holes =>
    rw [List.flatMap_cons, List.forall_mem_append] at hholes
    have hbefore := Tree.uniqueKeys_array.1 (hholes.1 (.array before) (List.mem_singleton_self _))
    refine iff_of_true (List.forall_mem_cons.2 ⟨?_, hholes.2⟩) rfl
    exact Tree.uniqueKeys_array.2 (List.forall_mem_append.2 ⟨hbefore, by simpa using hv⟩)
  | .entry before key :: holes =>
    rw [List.flatMap_cons, List.forall_mem_append] at hholes
    obtain ⟨hnodup, hvalues⟩ :=
      Tree.uniqueKeys_dict.1 (hholes.1 (.dict before) (by simp [Hole.trees]))
    have hplug : (Hole.plug (.entry before key) v).UniqueKeys ↔ key ∉ before.map (·.1) := by
      rw [Hole.plug, Tree.uniqueKeys_dict, List.map_append, List.map_singleton,
        List.nodup_append_comm, List.singleton_append, List.nodup_cons, List.forall_mem_append]
      simp only [hnodup, hv, List.forall_mem_singleton, and_true]
      exact and_iff_left hvalues
    have hclash : (filled (.entry before key :: holes) v).clash? = none ↔
        key ∉ before.map (·.1) := by
      rw [clash?]
      split_ifs with h <;> simp [h]
    rw [hclash, ← hplug]
    exact ⟨fun h => h _ List.mem_cons_self, fun h => List.forall_mem_cons.2 ⟨h, hholes.2⟩⟩

private theorem Starts.unique_iff {holes : List Hole} {t : Token} {d : Draft}
    (h : Starts holes t d) (hholes : ∀ t ∈ holes.flatMap Hole.trees, t.UniqueKeys) :
    d.Unique ↔ d.clash? = none := by
  cases h with
  | string h => exact unique_filled hholes fun _ hk => absurd hk List.not_mem_nil
  | dict => exact iff_of_true (List.forall_mem_cons.2 ⟨by simp [Tree.uniqueKeys_dict], hholes⟩) rfl
  | array =>
    exact iff_of_true (List.forall_mem_cons.2 ⟨by simp [Tree.uniqueKeys_array], hholes⟩) rfl

/-- Keys stay unique up to the first entry with a key that its dictionary has already. -/
theorem Advances.unique_iff {d d' : Draft} {t : Token} (h : Advances d t d') (hd : d.Unique) :
    d'.Unique ↔ d'.clash? = none := by
  cases h with
  | value h => exact h.unique_iff hd
  | closeDict entries holes =>
    obtain ⟨hdict, hholes⟩ := List.forall_mem_cons.1 hd
    exact unique_filled hholes hdict
  | key h entries holes =>
    exact iff_of_true (List.forall_mem_cons.2 ⟨fun _ hk => absurd hk List.not_mem_nil, hd⟩) rfl
  | equals entries key holes => exact iff_of_true hd rfl
  | closeArray items holes =>
    obtain ⟨harray, hholes⟩ := List.forall_mem_cons.1 hd
    exact unique_filled hholes harray
  | item h => exact h.unique_iff hd
  | comma before holes v => exact iff_of_true hd rfl
  | semicolon before key holes v => exact iff_of_true hd rfl
  | close hole holes v =>
    obtain ⟨hplug, hholes⟩ := List.forall_mem_cons.1 hd
    exact unique_filled hholes hplug
  | rootSemicolon root => exact iff_of_true hd rfl
  | rootEnding root => exact iff_of_true hd rfl
  | ending root => exact iff_of_true hd rfl

/-! ### Errors -/

theorem checked_eq_ok_iff {d d' : Draft} {position : Position} :
    d.checked position = .ok d' ↔ d = d' ∧ d.clash? = none := by
  unfold checked
  split <;> simp_all

/-- Where nothing goes wrong a draft goes on to the next one. -/
theorem react_eq_ok_iff {d d' : Draft} {t : PlacedToken} :
    d.react t = .ok d' ↔ d.advance t.token = some d' ∧ d'.clash? = none := by
  unfold react
  cases d.advance t.token with
  | none => simp
  | some d₁ =>
    rw [checked_eq_ok_iff, Option.some.injEq]
    exact and_congr_right fun h => h ▸ Iff.rfl

theorem run_cons_eq_ok_iff {d d' : Draft} {t : PlacedToken} {ts : List PlacedToken}
    {error : Option LexError} :
    d.run (t :: ts) error = .ok d' ↔ ∃ d₁, d.react t = .ok d₁ ∧ d₁.run ts error = .ok d' := by
  rw [run]
  cases d.react t with
  | error e => simp [bind, Except.bind]
  | ok d₁ => simp [bind, Except.bind]

/-- Reading fails lexically, at a token that cannot follow, or at a repeated key. -/
theorem run_eq_error {d : Draft} {ts : List PlacedToken} {error : Option LexError} {e : ParseError}
    (h : d.run ts error = .error e) :
    (∃ l, e = .lexical l) ∨ (∃ state found, e = .unexpected state found) ∨
      ∃ key position, e = .duplicateKey key position := by
  induction ts generalizing d with
  | nil =>
    cases error with
    | none => cases h
    | some l => exact Or.inl ⟨l, (Except.error.inj h).symm⟩
  | cons t ts ih =>
    rw [run, react] at h
    cases hadvance : d.advance t.token with
    | none =>
      rw [hadvance] at h
      exact Or.inr (Or.inl ⟨_, _, (Except.error.inj h).symm⟩)
    | some d' =>
      rw [hadvance] at h
      cases hclash : d'.clash? with
      | none =>
        simp only [checked, hclash] at h
        exact ih h
      | some key =>
        simp only [checked, hclash] at h
        exact Or.inr (Or.inr ⟨_, _, (Except.error.inj h).symm⟩)

theorem eq_done_of_state {d : Draft} (hd : d.state = .done) : ∃ root, d = done root := by
  cases d with
  | filled holes t => rcases holes with _ | ⟨_ | _, _⟩ <;> cases hd
  | done root => exact ⟨root, rfl⟩
  | _ => cases hd

/-- Nothing but the end of the input completes a document. -/
theorem Advances.eq_ending {d : Draft} {t : Token} {root : Tree} (h : Advances d t (done root)) :
    t = .ending := by
  cases h with
  | value h => cases h
  | item h => cases h
  | rootEnding => rfl
  | ending => rfl

/-- The end of the input completes the document. -/
theorem Advances.eq_done {d d' : Draft} (h : Advances d .ending d') :
    ∃ root, d' = done root := by
  cases h with
  | value h => cases h with | string h => cases h
  | key h => cases h
  | item h => cases h with | string h => cases h
  | rootEnding root => exact ⟨root, rfl⟩
  | ending root => exact ⟨root, rfl⟩

end Draft

end PropertyList
