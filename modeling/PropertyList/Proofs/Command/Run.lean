import PropertyList.Command.Run
import PropertyList.Proofs.Buffer.Writing
import PropertyList.Proofs.Document.Parse

/-!
# What the command prints

The command parses a document and prints its rendering as a whole, or else it prints nothing. What
it prints is settled by three questions: whether the document is accepted, whether all line breaks
of its tree can be written, and whether the rendering is within the limit. The size that the buffer
starts with does not count. Whatever the answers are, all objects are given back.

A line break that cannot be written is found out if what is in front of it is within the limit. The
command then ends without an outcome, and nothing is printed either.

## Main definitions

* `Prints`, `BreaksOff`
* `Ending`, the ways in which the command can end

## Main results

* `ending_run` : the command ends in one of these ways.
* `execute_all_or_nothing`
-/

namespace PropertyList.Command

variable {read : FileReader} {path : Text} {n m : Int} {d : Bytes} {h : Heap}

/-! ### Printing a document -/

/-- Whether a document is accepted and has these bytes as its rendering, with `n` blanks for each
level. -/
def Prints (d : Bytes) (n : Int) (h : Heap) (bytes : Bytes) : Prop :=
  ∃ root h', Document.parseBytes d h = .ok root h' ∧ (h'.tree root).Writable n 0 ∧
    bytes = ((h'.tree root).render n 0).encode

/-- Whether a document is accepted and comes to a line break that cannot be written within the
first `m` bytes. -/
def BreaksOff (d : Bytes) (n m : Int) (h : Heap) : Prop :=
  ∃ root h', Document.parseBytes d h = .ok root h' ∧ ¬ (h'.tree root).Writable n 0 ∧
    ((h'.tree root).front n 0).length ≤ m

theorem prints_iff {root : ObjectId} {h' : Heap} (hparse : Document.parseBytes d h = .ok root h')
    {bytes : Bytes} :
    Prints d n h bytes ↔
      (h'.tree root).Writable n 0 ∧ bytes = ((h'.tree root).render n 0).encode := by
  constructor
  · rintro ⟨root', h'', hparse', hbreaks, hbytes⟩
    obtain ⟨rfl, rfl⟩ := EStateM.Result.ok.inj (hparse.symm.trans hparse')
    exact ⟨hbreaks, hbytes⟩
  · rintro ⟨hbreaks, hbytes⟩
    exact ⟨root, h', hparse, hbreaks, hbytes⟩

theorem breaksOff_iff {root : ObjectId} {h' : Heap}
    (hparse : Document.parseBytes d h = .ok root h') :
    BreaksOff d n m h ↔
      ¬ (h'.tree root).Writable n 0 ∧ ((h'.tree root).front n 0).length ≤ m := by
  constructor
  · rintro ⟨root', h'', hparse', hbreaks, hfits⟩
    obtain ⟨rfl, rfl⟩ := EStateM.Result.ok.inj (hparse.symm.trans hparse')
    exact ⟨hbreaks, hfits⟩
  · rintro ⟨hbreaks, hfits⟩
    exact ⟨root, h', hparse, hbreaks, hfits⟩

/-- The ways in which the command can end on a file with the bytes `d`. -/
inductive Ending (path : Text) (n m : Int) (d : Bytes) (h : Heap) :
    EStateM.Result Breakdown Heap Outcome → Prop
  | unparsed {e : ParseError} {h₁ h' : Heap} (hparse : Document.parseBytes d h = .error e h₁)
      (hlive : h'.live = h.live) : Ending path n m d h (.ok (unparsed path (.parse e)) h')
  | unwritten {root : ObjectId} {h₁ h' : Heap} (hparse : Document.parseBytes d h = .ok root h₁)
      (hlong : m < ((h₁.tree root).front n 0).length) (hlive : h'.live = h.live) :
      Ending path n m d h (.ok (unwritten path m) h')
  | written {root : ObjectId} {h₁ h' : Heap} (hparse : Document.parseBytes d h = .ok root h₁)
      (hbreaks : (h₁.tree root).Writable n 0)
      (hfits : ((h₁.tree root).render n 0).encode.length ≤ m) (hlive : h'.live = h.live) :
      Ending path n m d h (.ok ⟨0, ((h₁.tree root).render n 0).encode ++ [0x0A], []⟩ h')
  | brokenOff {root : ObjectId} {h₁ h' : Heap} (hparse : Document.parseBytes d h = .ok root h₁)
      (hbreaks : ¬ (h₁.tree root).Writable n 0)
      (hfits : ((h₁.tree root).front n 0).length ≤ m) (hlive : h'.live = h.live) :
      Ending path n m d h (.error (.buffer .oversized) h')

/-- What is written of a tree does not depend on the size that the buffer starts with. -/
theorem write_eq (path : Text) (n : Int) (hm : 0 < m) (t : Tree) :
    write path n m t =
      if m < (t.front n 0).length then .ok (unwritten path m)
      else if t.Writable n 0 then .ok ⟨0, (t.render n 0).encode ++ [0x0A], []⟩
      else .error (.buffer .oversized) := by
  have hcapacities : Buffer.AreCapacities (min initialCapacity m) m := by
    refine ⟨?_, Int.min_le_right _ _, ?_⟩ <;> unfold initialCapacity
    · omega
    · unfold Buffer.unbounded
      omega
  rw [write, Tree.dump_eq hcapacities]
  split_ifs <;> rfl

/-- The command ends in one of the ways there are, with all objects given back. -/
theorem ending_run (hpath : .char '\x00' ∉ path) (hread : read path = .ok d) (hm : 0 < m)
    (h : Heap) : Ending path n m d h (run read path n m h) := by
  have hleaks := Document.parse_leaks_nothing (.decode d) h
  rw [run, Document.parseFile, if_neg hpath, hread]
  cases hbytes : Document.parseBytes d h with
  | error e h₁ =>
    have hdecode := hbytes
    rw [Document.parseBytes] at hdecode
    rw [hdecode] at hleaks
    simp only [hbytes]
    exact .unparsed hbytes hleaks.1
  | ok root h₁ =>
    have hdecode := hbytes
    rw [Document.parseBytes] at hdecode
    rw [hdecode] at hleaks
    obtain ⟨-, -, -, -, -, -, h', hrelease, hlive, -⟩ := hleaks
    simp only [hbytes, hrelease, write_eq path n hm]
    split_ifs with hlong hbreaks
    · exact .unwritten hbytes hlong hlive
    · rw [Tree.front_eq hbreaks, Int.not_lt] at hlong
      exact .written hbytes hbreaks hlong hlive
    · exact .brokenOff hbytes hbreaks (Int.not_lt.1 hlong) hlive

/-- Settings with numbers in range run the command on their file. -/
theorem execute_eq_run {arguments : List Text} {settings : Settings}
    (harguments : Settings.ofArguments arguments = .ok settings) (hhelp : settings.help = false)
    (hfile : settings.file = some path) (hindentation : settings.indentation = some n)
    (hn : 0 ≤ n) (hmaxSize : settings.maxSize = some m) (hm : 0 < m) :
    execute read arguments h = run read path n m h := by
  rw [execute, harguments]
  simp only [hhelp, hfile]
  rw [runWith, hindentation, hmaxSize]
  simp only [numberFor, pure_bind]
  rw [if_neg (Int.not_lt.2 hn), if_neg (Int.not_le.2 hm)]

/-! ### All or nothing -/

namespace Ending

variable {r : EStateM.Result Breakdown Heap Outcome}

theorem status_eq_zero_iff (hr : Ending path n m d h r) :
    (∃ outcome h', r = .ok outcome h' ∧ outcome.status = 0) ↔
      ∃ bytes, Prints d n h bytes ∧ bytes.length ≤ m := by
  cases hr with
  | unparsed hparse hlive =>
    refine iff_of_false ?_ ?_
    · rintro ⟨outcome, h', heq, hstatus⟩
      cases heq
      cases hstatus
    · rintro ⟨bytes, ⟨root, h', hparse', -⟩, -⟩
      cases hparse.symm.trans hparse'
  | unwritten hparse hlong hlive =>
    refine iff_of_false ?_ ?_
    · rintro ⟨outcome, h', heq, hstatus⟩
      cases heq
      cases hstatus
    · rintro ⟨bytes, hprints, hle⟩
      obtain ⟨hbreaks, rfl⟩ := (prints_iff hparse).1 hprints
      rw [Tree.front_eq hbreaks] at hlong
      omega
  | written hparse hbreaks hfits hlive =>
    exact iff_of_true ⟨_, _, rfl, rfl⟩ ⟨_, (prints_iff hparse).2 ⟨hbreaks, rfl⟩, hfits⟩
  | brokenOff hparse hbreaks hfits hlive =>
    refine iff_of_false ?_ ?_
    · rintro ⟨outcome, h', heq, -⟩
      cases heq
    · rintro ⟨bytes, hprints, -⟩
      exact absurd ((prints_iff hparse).1 hprints).1 hbreaks

theorem error_iff (hr : Ending path n m d h r) :
    (∃ breakdown h', r = .error breakdown h') ↔ BreaksOff d n m h := by
  cases hr with
  | unparsed hparse hlive =>
    refine iff_of_false ?_ ?_
    · rintro ⟨breakdown, h', heq⟩
      cases heq
    · rintro ⟨root, h', hparse', -⟩
      cases hparse.symm.trans hparse'
  | unwritten hparse hlong hlive =>
    refine iff_of_false ?_ ?_
    · rintro ⟨breakdown, h', heq⟩
      cases heq
    · intro hbreaksOff
      exact absurd hlong (Int.not_lt.2 ((breaksOff_iff hparse).1 hbreaksOff).2)
  | written hparse hbreaks hfits hlive =>
    refine iff_of_false ?_ ?_
    · rintro ⟨breakdown, h', heq⟩
      cases heq
    · intro hbreaksOff
      exact absurd hbreaks ((breaksOff_iff hparse).1 hbreaksOff).1
  | brokenOff hparse hbreaks hfits hlive =>
    exact iff_of_true ⟨_, _, rfl⟩ ((breaksOff_iff hparse).2 ⟨hbreaks, hfits⟩)

theorem output_of_ok (hr : Ending path n m d h r) {outcome : Outcome} {h' : Heap}
    (heq : r = .ok outcome h') :
    h'.live = h.live ∧
      ((outcome.status = 0 ∧ ∃ bytes, Prints d n h bytes ∧ outcome.output = bytes ++ [0x0A]) ∨
        outcome.status = 1 ∧ outcome.output = []) := by
  subst heq
  cases hr with
  | unparsed hparse hlive => exact ⟨hlive, Or.inr ⟨rfl, rfl⟩⟩
  | unwritten hparse hlong hlive => exact ⟨hlive, Or.inr ⟨rfl, rfl⟩⟩
  | written hparse hbreaks hfits hlive =>
    exact ⟨hlive, Or.inl ⟨rfl, _, (prints_iff hparse).2 ⟨hbreaks, rfl⟩, rfl⟩⟩

theorem breakdown_of_error (hr : Ending path n m d h r) {breakdown : Breakdown} {h' : Heap}
    (heq : r = .error breakdown h') :
    h'.live = h.live ∧ breakdown = .buffer .oversized := by
  subst heq
  cases hr with
  | brokenOff hparse hbreaks hfits hlive => exact ⟨hlive, rfl⟩

end Ending

/-- **The command prints a document as a whole or not at all.** It ends with the status 0 exactly if
the document is accepted, all line breaks can be written and the rendering is within the limit, and
then it prints the rendering and a line feed behind it. Otherwise it prints nothing. It then ends
with the status 1, unless it comes to a line break that cannot be written within the limit, where it
breaks off. As many objects are in use afterwards as before. -/
theorem execute_all_or_nothing {arguments : List Text} {settings : Settings}
    (harguments : Settings.ofArguments arguments = .ok settings) (hhelp : settings.help = false)
    (hfile : settings.file = some path) (hindentation : settings.indentation = some n)
    (hn : 0 ≤ n) (hmaxSize : settings.maxSize = some m) (hm : 0 < m)
    (hpath : .char '\x00' ∉ path) (hread : read path = .ok d) (h : Heap) :
    let r := execute read arguments h
    ((∃ outcome h', r = .ok outcome h' ∧ outcome.status = 0) ↔
      ∃ bytes, Prints d n h bytes ∧ bytes.length ≤ m) ∧
    ((∃ breakdown h', r = .error breakdown h') ↔ BreaksOff d n m h) ∧
    (∀ outcome h', r = .ok outcome h' → h'.live = h.live ∧
      ((outcome.status = 0 ∧ ∃ bytes, Prints d n h bytes ∧ outcome.output = bytes ++ [0x0A]) ∨
        outcome.status = 1 ∧ outcome.output = [])) ∧
    ∀ breakdown h', r = .error breakdown h' →
      h'.live = h.live ∧ breakdown = .buffer .oversized := by
  intro r
  have hending : Ending path n m d h r := by
    rw [show r = _ from execute_eq_run harguments hhelp hfile hindentation hn hmaxSize hm]
    exact ending_run hpath hread hm h
  exact ⟨hending.status_eq_zero_iff, hending.error_iff, fun _ _ => hending.output_of_ok,
    fun _ _ => hending.breakdown_of_error⟩

/-- The document `(a)`. -/
private theorem exists_parseBytes_item :
    ∃ root h', Document.parseBytes [0x28, 0x61, 0x29] .empty = .ok root h' ∧
      h'.tree root = .array [.string [.char 'a']] := by
  have hscan : (Text.decode [0x28, 0x61, 0x29]).scan.tokens.map (·.token) =
      Token.mark .openParen :: ([Token.word [.char 'a']] ++ []) ++ [Token.mark .closeParen] ++
        [] ++ [Token.ending] := by decide +kernel
  have hitems : Separated ValueTokens .comma _ _ := .one (.string (t := .word [.char 'a']) rfl)
  have hdocument := DocumentTokens.intro (.array (.filled hitems (Or.inl rfl))) (Or.inl rfl)
  rw [← hscan] at hdocument
  have hread := Document.read_eq_ok (by decide +kernel) hdocument (by decide)
  exact Document.exists_parse_iff.2 ⟨_, hread, (Tree.arrange_eq_self (by decide)).symm⟩

/-- An array of one item on one line, which takes up the whole limit. -/
theorem execute_all_or_nothing_one_line :
    ∃ outcome h', execute (fun _ => .ok [0x28, 0x61, 0x29])
        ["--indentation", "0", "--max-size", "3", "f"] .empty = .ok outcome h' ∧
      outcome.status = 0 := by
  have harguments : Settings.ofArguments ["--indentation", "0", "--max-size", "3", "f"] =
      .ok ⟨some "f", some 0, some 3, false, false, []⟩ := by decide +kernel
  let read : FileReader := fun _ => .ok [0x28, 0x61, 0x29]
  have hall := execute_all_or_nothing harguments rfl rfl rfl (Int.le_refl 0) rfl
    (by decide : (0 : Int) < 3) (by decide) (rfl : read "f" = _) .empty
  obtain ⟨root, h', hparse, htree⟩ := exists_parseBytes_item
  refine hall.1.2 ⟨[0x28, 0x61, 0x29], (prints_iff hparse).2 ?_, by decide⟩
  rw [htree]
  decide +kernel

/-- A line break of `2 ^ 63` blanks. The rendering is within the one limit and beyond the other, but
the command ends in neither of the ways that would go with it. -/
theorem execute_oversized_break :
    (∃ root h', Document.parseBytes [0x28, 0x61, 0x29] .empty = .ok root h' ∧
      ((h'.tree root).render (2 ^ 63) 0).encode.length = 2 ^ 63 + 5) ∧
    ∀ limit ∈ (["18446744073709551616", "8"] : List Text), ∃ h',
      execute (fun _ => .ok [0x28, 0x61, 0x29])
        ["--indentation", "9223372036854775808", "--max-size", limit, "f"] .empty =
          .error (.buffer .oversized) h' := by
  obtain ⟨root, h', hparse, htree⟩ := exists_parseBytes_item
  refine ⟨⟨root, h', hparse, ?_⟩, ?_⟩
  · have hpieces : (Tree.array [.string [.char 'a']]).pieces (2 ^ 63) 0 =
        [.text [.char '('], .lineBreak (2 ^ 63), .text [.char 'a'], .lineBreak 0,
          .text [.char ')']] := by decide
    rw [htree, Tree.encode_render, hpieces]
    simp only [List.flatMap_cons, List.flatMap_nil, List.length_append,
      Piece.length_bytes_lineBreak]
    decide +kernel
  · have hfront : ¬ (Tree.array [.string [.char 'a']]).Writable (2 ^ 63) 0 ∧
        ((Tree.array [.string [.char 'a']]).front (2 ^ 63) 0).length = 1 := by decide +kernel
    have hends : ∀ (limit : Text) (m : Int), Settings.ofArguments
          ["--indentation", "9223372036854775808", "--max-size", limit, "f"] =
            .ok ⟨some "f", some (2 ^ 63), some m, false, false, []⟩ → 0 < m → ∃ h',
        execute (fun _ => .ok [0x28, 0x61, 0x29])
          ["--indentation", "9223372036854775808", "--max-size", limit, "f"] .empty =
            .error (.buffer .oversized) h' := by
      intro limit m harguments hm
      rw [execute_eq_run harguments rfl rfl rfl (by decide) rfl hm]
      have hending := @ending_run (fun _ => .ok [0x28, 0x61, 0x29]) "f" (2 ^ 63) m _
        (by decide) rfl hm .empty
      have hbreaks : BreaksOff [0x28, 0x61, 0x29] (2 ^ 63) m .empty := by
        rw [breaksOff_iff hparse, htree, hfront.2]
        exact ⟨hfront.1, hm⟩
      obtain ⟨breakdown, h'', hr⟩ := hending.error_iff.2 hbreaks
      obtain ⟨-, rfl⟩ := hending.breakdown_of_error hr
      exact ⟨h'', hr⟩
    rw [List.forall_mem_cons, List.forall_mem_singleton]
    exact ⟨hends _ (2 ^ 64) (by decide +kernel) (by decide),
      hends _ 8 (by decide +kernel) (by decide)⟩

end PropertyList.Command
