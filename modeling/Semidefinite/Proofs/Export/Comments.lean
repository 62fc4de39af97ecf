import Semidefinite.Proofs.Export.LineReader

/-!
# Comments ahead of a file

A comment goes ahead of a text that does not depend on it (`renderSparse_comment`,
`renderDense_comment`). It is written as it is, so it takes one line more than it has
newlines (`length_brokenComment`), and a reader has to skip that many to be where it is
in a file without a comment. Skipping one line is enough exactly if the comment has no
newline (`render_comment`); else the rest of it may be read as the header
(`header_of_broken_comment`).
-/

namespace Semidefinite

/-! ## Lines of a text -/

namespace Text

/-- The lines of a text. What stands after the last newline is left out. -/
def lines (text : String) : List (List Char) :=
  terminated '\n' text.toList

theorem unlines_cons (line : String) (rest : List String) :
    unlines (line :: rest) = line ++ "\n" ++ unlines rest := by
  refine String.toList_inj.1 ?_
  rw [String.toList_append, String.toList_append, toList_unlines, toList_unlines, List.map_cons,
    List.flatMap_cons]
  rfl

theorem terminated_append_cons (mark : Char) (before after : List Char) :
    terminated mark (before ++ mark :: after) = before.splitOn mark ++ terminated mark after := by
  unfold terminated
  rw [List.splitOn_append_cons_self,
    List.dropLast_append_of_ne_nil (List.splitOn_ne_nil mark after)]

theorem lines_unlines_append {front : List String} (h : ∀ line ∈ front, '\n' ∉ line.toList)
    (text : String) : lines (unlines front ++ text) = front.map String.toList ++ lines text := by
  induction front with
  | nil => rfl
  | cons line rest ih =>
    obtain ⟨hline, hrest⟩ := List.forall_mem_cons.1 h
    rw [unlines_cons, String.append_assoc, lines, String.toList_append, String.toList_append,
      List.append_assoc, List.map_cons, List.cons_append, ← ih hrest]
    refine (terminated_append_cons '\n' _ _).trans ?_
    rw [List.splitOn_eq_singleton hline]
    rfl

theorem length_splitOn (mark : Char) (text : List Char) :
    (text.splitOn mark).length = text.count mark + 1 := by
  induction text with
  | nil => rfl
  | cons c rest ih =>
    unfold List.splitOn at ih ⊢
    rw [List.splitOnP_cons_eq_if_modifyHead, List.count_cons]
    split
    · rw [List.length_cons, ih]
    · rw [List.length_modifyHead, ih]

end Text

namespace LineReader

variable {α : Type}

def after (count : Nat) (reader : LineReader α) : LineReader α := do
  let _ ← take count
  reader

theorem run_after (reader : LineReader α) {skipped : List (List Char)} {count : Nat}
    (h : skipped.length = count) (rest : List (List Char)) :
    (after count reader).run (skipped ++ rest) = reader.run rest := by
  unfold after
  rw [StateT.run_bind, ← h, reads_take skipped rest]
  rfl

end LineReader

/-! ## Comments -/

namespace Sdpa

open LineReader Text

variable {K : Type} [Scalar K] {S : Type → Type} [Storage S]

def commented (comment text : String) : String :=
  "\"" ++ comment ++ "\"" ++ "\n" ++ text

theorem renderSparse_comment (p : NumericProblem S K) (comment : String) :
    renderSparse p (some comment) = commented comment <$> renderSparse p none := by
  unfold renderSparse sparseLines
  cases (List.range p.variableCount).mapM (coefficientLines p) with
  | error f => rfl
  | ok coefficients => exact congrArg Except.ok (unlines_cons _ _)

theorem renderDense_comment (p : NumericProblem Grid K) (comment : String) :
    renderDense p (some comment) = commented comment <$> renderDense p none := by
  unfold renderDense denseLines
  cases (List.range p.variableCount).mapM fun k =>
      groupLines <$> p.blocks.mapM fun block => elementAt block.coefficients k with
  | error f => rfl
  | ok coefficients => exact congrArg Except.ok (unlines_cons _ _)

/-- The lines that a comment takes. -/
def brokenComment (comment : String) : List (List Char) :=
  ("\"" ++ comment ++ "\"").toList.splitOn '\n'

theorem lines_commented (comment text : String) :
    lines (commented comment text) = brokenComment comment ++ lines text := by
  unfold lines commented
  rw [String.toList_append, String.toList_append, List.append_assoc]
  exact terminated_append_cons '\n' _ _

theorem length_brokenComment (comment : String) :
    (brokenComment comment).length = comment.toList.count '\n' + 1 := by
  unfold brokenComment
  rw [length_splitOn, String.toList_append, String.toList_append, List.count_append,
    List.count_append]
  simp

theorem readText?_eq {α : Type} (reader : LineReader α) (text : String) :
    reader.readText? text = match reader.run (lines text) with
      | some (a, []) => some a
      | _ => none := rfl

/-- Behind the comment a reader is where it is in the text alone. -/
theorem readText?_after_comment {α : Type} (reader : LineReader α) (comment text : String) :
    (after (comment.toList.count '\n' + 1) reader).readText? (commented comment text) =
      reader.readText? text := by
  have hrun := run_after reader (length_brokenComment comment) (lines text)
  rw [← lines_commented] at hrun
  rw [readText?_eq, hrun, readText?_eq]

/-- The comment takes one line exactly if it has no newline. -/
theorem lines_commented_eq_cons_iff (comment text : String) :
    lines (commented comment text) = ("\"" ++ comment ++ "\"").toList :: lines text ↔
      '\n' ∉ comment.toList := by
  rw [lines_commented]
  constructor
  · intro h
    have hlength := congrArg List.length h
    rw [List.length_append, length_brokenComment, List.length_cons] at hlength
    exact List.count_eq_zero.1 (by omega)
  · intro h
    have hquoted : '\n' ∉ ("\"" ++ comment ++ "\"").toList := by
      simpa using h
    unfold brokenComment
    rw [List.splitOn_eq_singleton hquoted]
    rfl

/-- A reader that skips one line finds what is in the text alone exactly if the comment has no
newline. -/
theorem readText?_after_one_iff (comment text : String) :
    (∀ {α : Type} (reader : LineReader α),
      (after 1 reader).readText? (commented comment text) = reader.readText? text) ↔
        '\n' ∉ comment.toList := by
  constructor
  · intro h
    have hlength := length_brokenComment comment
    obtain ⟨line, rest, hlines⟩ : ∃ line rest, brokenComment comment = line :: rest :=
      List.exists_cons_of_length_eq_add_one hlength
    have hall : readText? remaining text = some (lines text) := rfl
    have hskipped : (after 1 remaining).readText? (commented comment text) =
        some (rest ++ lines text) := by
      have hrun := run_after remaining (show [line].length = 1 from rfl) (rest ++ lines text)
      rw [← List.append_assoc, List.singleton_append, ← hlines, ← lines_commented] at hrun
      rw [readText?_eq, hrun]
      rfl
    rw [h, hall, Option.some.injEq, eq_comm, List.append_left_eq_self] at hskipped
    rw [hlines, hskipped, List.length_singleton] at hlength
    exact List.count_eq_zero.1 (by omega)
  · intro h α reader
    have hread := readText?_after_comment reader comment text
    rwa [List.count_eq_zero.2 h] at hread

/-- Behind a newline a comment may have the header of another problem, and a reader that skips one
line takes it for that of the file. -/
theorem header_of_broken_comment {number : List Char → Option K} {F : Set K}
    (hnumber : ReadsNumber number F)
    (hunmarked : ∀ v ∈ F, ∀ c ∈ [',', ' '], c ∉ (Scalar.fileText v).toList)
    (hunbroken : ∀ v ∈ F, '\n' ∉ (Scalar.fileText v).toList)
    {q : NumericProblem S K} (hobjective : ∀ v ∈ q.objective, v ∈ F) (text : String) :
    (after 1 (header number)).run (lines (commented ("\n" ++ unlines (headerLines q)) text)) =
      some ((q.objective, q.blockSizes), lines ("\"\n" ++ text)) := by
  have hlines : lines (unlines (headerLines q) ++ ("\"\n" ++ text)) =
      (headerLines q).map String.toList ++ lines ("\"\n" ++ text) :=
    lines_unlines_append (newline_not_mem_headerLines fun v hv => hunbroken v (hobjective v hv)) _
  have htext : commented ("\n" ++ unlines (headerLines q)) text =
      unlines ["\""] ++ (unlines (headerLines q) ++ ("\"\n" ++ text)) := by
    refine String.toList_inj.1 ?_
    simp [commented, unlines]
  have hskip : (["\""].map String.toList).length = 1 := rfl
  rw [htext, lines_unlines_append (by simp), hlines, run_after _ hskip]
  exact reads_header hnumber hunmarked hobjective _

/-- What a comment adds to a file. The text behind it is that of the file without a comment, and a
reader that skips one line, and one more for each newline of the comment, finds what is in that
file. Quotes and carriage returns break no line: the comment takes one line, and it is enough to
skip one, exactly if the comment has no newline. -/
theorem render_comment (comment : String) :
    (∀ {S : Type → Type} [Storage S] (p : NumericProblem S K),
      renderSparse p (some comment) = commented comment <$> renderSparse p none) ∧
    (∀ p : NumericProblem Grid K,
      renderDense p (some comment) = commented comment <$> renderDense p none) ∧
    ∀ text,
      (∀ {α : Type} (reader : LineReader α),
        (after (comment.toList.count '\n' + 1) reader).readText? (commented comment text) =
          reader.readText? text) ∧
      (lines (commented comment text) = ("\"" ++ comment ++ "\"").toList :: lines text ↔
        '\n' ∉ comment.toList) ∧
      ((∀ {α : Type} (reader : LineReader α),
        (after 1 reader).readText? (commented comment text) = reader.readText? text) ↔
          '\n' ∉ comment.toList) :=
  ⟨fun p => renderSparse_comment p comment, fun p => renderDense_comment p comment, fun text =>
    ⟨fun reader => readText?_after_comment reader comment text,
      lines_commented_eq_cons_iff comment text, readText?_after_one_iff comment text⟩⟩

/-- Behind this comment a problem of one variable and one block is taken for one of none. -/
theorem header_changed_by_comment :
    let comment := "\n0 = ndim\n0 = nblocks\n= blockstruct\n = objcoeffs\n"
    let block : Pencil Grid Float := ⟨[⟨1, 1, #[1], rfl⟩], ⟨1, 1, #[2], rfl⟩⟩
    let p : NumericProblem Grid Float := ⟨[3], [block]⟩
    let number : List Char → Option Float := fun _ => some 3
    ∃ text plain, renderSparse p (some comment) = .ok text ∧ renderSparse p none = .ok plain ∧
      lines text ≠ ("\"" ++ comment ++ "\"").toList :: lines plain ∧
      (∃ rest, (header number).run (lines plain) = some (([3], [1]), rest)) ∧
      ∃ rest, (after 1 (header number)).run (lines text) = some (([], []), rest) := by
  intro comment block p number
  let entries := ["0 1 1 1 -2.0", "1 1 1 1 1.0"]
  let empty : NumericProblem Grid Float := ⟨[], []⟩
  have hlines : sparseLines p none = .ok (headerLines p ++ entries) := by
    decide +kernel
  have hnumber : ReadsNumber number {3} := fun v hv => congrArg some hv.symm
  have htext : Scalar.fileText (3 : Float) = "3.0" := by
    decide +kernel
  have hunmarked : ∀ v ∈ ({3} : Set Float), ∀ c ∈ [',', ' '], c ∉ (Scalar.fileText v).toList := by
    rintro v rfl
    simp [htext]
  have hunbroken : ∀ v ∈ ({3} : Set Float), '\n' ∉ (Scalar.fileText v).toList := by
    rintro v rfl
    simp [htext]
  have hplain : lines (unlines (headerLines p ++ entries)) =
      (headerLines p).map String.toList ++ entries.map String.toList := by
    rw [← List.map_append]
    refine terminated_unlines (List.forall_mem_append.2 ⟨?_, by decide +kernel⟩)
    exact newline_not_mem_headerLines (List.forall_mem_singleton.2 (hunbroken 3 rfl))
  have hwritten : renderSparse p none = .ok (unlines (headerLines p ++ entries)) :=
    congrArg (unlines <$> ·) hlines
  have hread : (header number).run (lines (unlines (headerLines p ++ entries))) =
      some (([3], [1]), entries.map String.toList) := by
    rw [hplain]
    exact reads_header hnumber hunmarked (List.forall_mem_singleton.2 (Set.mem_singleton 3)) _
  have hempty : headerLines empty =
      ["0 = ndim", "0 = nblocks", "= blockstruct", " = objcoeffs"] := by
    decide +kernel
  have hother := header_of_broken_comment hnumber hunmarked hunbroken (q := empty) nofun
    (unlines (headerLines p ++ entries))
  rw [hempty] at hother
  refine ⟨_, _, (renderSparse_comment p comment).trans (congrArg _ hwritten), hwritten, ?_,
    ⟨_, hread⟩, _, hother⟩
  exact fun h => (lines_commented_eq_cons_iff comment _).1 h (by decide +kernel)

end Sdpa

end Semidefinite
