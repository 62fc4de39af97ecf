import Semidefinite.Export.Sdpa
import Semidefinite.Proofs.Grid
import Semidefinite.Proofs.Numerals

/-!
# Reading the lines of a file

A `LineReader` takes lines from the front of a file. `LineReader.Reads` says what it
makes of the lines of one part of the file, whatever follows them, so that readers
of parts put together read the parts put together (`Reads.bind`). Both SDPA formats
share the reader of the header (`Sdpa.reads_header`). Numbers are read by any
function that undoes their text (`ReadsNumber`); there is one as soon as different
numbers have different texts (`LegibleNumbers.readsNumber`).
-/

namespace Semidefinite

/-! ## Pieces of a text -/

namespace Text

/-- The pieces that each end in a mark. What stands after the last mark is left out. -/
def terminated (mark : Char) (text : List Char) : List (List Char) :=
  (text.splitOn mark).dropLast

theorem splitOn_append_cons {mark : Char} {piece : List Char} (h : mark ∉ piece)
    (rest : List Char) : (piece ++ mark :: rest).splitOn mark = piece :: rest.splitOn mark := by
  have hpiece : ∀ c ∈ piece, (c == mark) = false := fun c hc =>
    beq_false_of_ne fun heq => h (heq ▸ hc)
  exact List.splitOnP_append_cons_of_forall_mem hpiece mark (beq_self_eq_true mark) rest

theorem terminated_flatMap {mark : Char} {parts : List (List Char)}
    (h : ∀ part ∈ parts, mark ∉ part) :
    terminated mark (parts.flatMap (· ++ [mark])) = parts := by
  have hsplit : (parts.flatMap (· ++ [mark])).splitOn mark = parts ++ [[]] := by
    induction parts with
    | nil => rfl
    | cons part rest ih =>
      obtain ⟨hpart, hrest⟩ := List.forall_mem_cons.1 h
      rw [List.flatMap_cons, List.append_assoc, List.singleton_append, splitOn_append_cons hpart,
        ih hrest, List.cons_append]
  unfold terminated
  rw [hsplit, List.dropLast_concat]

theorem toList_unlines (lines : List String) :
    (unlines lines).toList = (lines.map String.toList).flatMap (· ++ ['\n']) := by
  unfold unlines
  rw [String.toList_join, List.flatMap_map, List.flatMap_map]
  exact List.flatMap_congr fun line _ => String.toList_append

/-- The text of lines falls into the lines again. -/
theorem terminated_unlines {lines : List String} (h : ∀ line ∈ lines, '\n' ∉ line.toList) :
    terminated '\n' (unlines lines).toList = lines.map String.toList := by
  rw [toList_unlines, terminated_flatMap]
  simpa using h

theorem filter_intercalate (keep : Char → Bool) (sep : List Char) (parts : List (List Char)) :
    (sep.intercalate parts).filter keep =
      (sep.filter keep).intercalate (parts.map (·.filter keep)) := by
  induction parts with
  | nil => rfl
  | cons part rest ih =>
    cases rest with
    | nil => simp
    | cons next rest =>
      rw [List.intercalate_cons_cons, List.filter_append, List.filter_append, ih]
      simp only [List.map_cons, List.intercalate_cons_cons]

theorem mem_of_mem_intercalate {sep : List Char} {parts : List (List Char)} {c : Char}
    (h : c ∈ sep.intercalate parts) : c ∈ sep ∨ ∃ part ∈ parts, c ∈ part := by
  induction parts with
  | nil => cases h
  | cons part rest ih =>
    cases rest with
    | nil => exact .inr ⟨part, List.mem_cons_self, by simpa using h⟩
    | cons next rest =>
      rw [List.intercalate_cons_cons, List.mem_append, List.mem_append] at h
      rcases h with (hc | hc) | hc
      · exact .inr ⟨part, List.mem_cons_self, hc⟩
      · exact .inl hc
      · exact (ih hc).imp_right fun ⟨p, hp, hcp⟩ => ⟨p, List.mem_cons_of_mem _ hp, hcp⟩

/-- The number whose digits these are. -/
def natural? (text : List Char) : Option Nat :=
  (String.ofList text).toNat?

@[simp] theorem natural?_repr (n : Nat) : natural? (Nat.repr n).toList = some n := by
  unfold natural?
  rw [String.ofList_toList, Nat.toNat?_repr]

theorem mapM_eq_some_of_forall₂ {α β : Type} {f : α → Option β} {items : List α} {values : List β}
    (h : List.Forall₂ (fun a b => f a = some b) items values) : items.mapM f = some values := by
  induction h with
  | nil => rfl
  | cons hab _ ih =>
    rw [List.mapM_cons, hab, ih]
    rfl

theorem mapM_map_eq_some {α β : Type} {f : α → Option β} {text : β → α} {values : List β}
    (h : ∀ b ∈ values, f (text b) = some b) : (values.map text).mapM f = some values := by
  refine mapM_eq_some_of_forall₂ ?_
  rwa [List.forall₂_map_left_iff, List.forall₂_same]

end Text

/-! ## Readers of lines -/

/-- Takes lines from the front of a file, and may fail. -/
abbrev LineReader := StateT (List (List Char)) Option

namespace LineReader

variable {α β ι : Type}

def take (count : Nat) : LineReader (List (List Char)) := fun lines =>
  if count ≤ lines.length then some (lines.take count, lines.drop count) else none

def next : LineReader (List Char)
  | [] => none
  | line :: rest => some (line, rest)

def remaining : LineReader (List (List Char)) := fun lines =>
  some (lines, [])

def expect (text : String) : LineReader Unit := do
  if (← next) = text.toList then pure () else failure

/-- What stands before a label at the end of the next line. -/
def labelled (label : String) : LineReader (List Char) := do
  (← next).dropSuffix? label.toList

/-- Reads a whole text, which ends with a newline. -/
def readText? (reader : LineReader α) (text : String) : Option α :=
  match reader.run (Text.terminated '\n' text.toList) with
  | some (a, []) => some a
  | _ => none

/-- The reader takes these lines for `a`, whatever follows them. -/
def Reads (reader : LineReader α) (lines : List (List Char)) (a : α) : Prop :=
  ∀ rest, reader.run (lines ++ rest) = some (a, rest)

theorem reads_pure (a : α) : Reads (pure a) [] a := fun _ => rfl

theorem Reads.bind {reader : LineReader α} {next : α → LineReader β}
    {lines lines' : List (List Char)} {a : α} {b : β} (h : Reads reader lines a)
    (hnext : Reads (next a) lines' b) :
    Reads (reader >>= next) (lines ++ lines') b := by
  intro rest
  rw [StateT.run_bind, List.append_assoc, h]
  exact hnext rest

theorem Reads.bind_line {reader : LineReader α} {next : α → LineReader β} {line : List Char}
    {lines : List (List Char)} {a : α} {b : β} (h : Reads reader [line] a)
    (hnext : Reads (next a) lines b) : Reads (reader >>= next) (line :: lines) b :=
  h.bind hnext

theorem Reads.bind_some {result : Option α} {next : α → LineReader β} {lines : List (List Char)}
    {a : α} {b : β} (h : result = some a) (hnext : Reads (next a) lines b) :
    Reads (monadLift result >>= next) lines b := by
  subst h
  exact hnext

theorem reads_take (lines : List (List Char)) : Reads (take lines.length) lines lines := by
  intro rest
  have hlength : lines.length ≤ (lines ++ rest).length := by simp
  show take lines.length (lines ++ rest) = _
  unfold take
  rw [if_pos hlength, List.take_left, List.drop_left]

theorem reads_next (line : List Char) : Reads next [line] line := fun _ => rfl

theorem reads_expect (text : String) : Reads (expect text) [text.toList] () := by
  unfold expect
  refine (reads_next _).bind_line ?_
  rw [if_pos rfl]
  exact reads_pure ()

theorem reads_labelled (before label : String) :
    Reads (labelled label) [(before ++ label).toList] before.toList := by
  have hsuffix : (before ++ label).toList.dropSuffix? label.toList = some before.toList := by
    rw [List.dropSuffix?_eq_some_iff]
    exact ⟨label.toList, String.toList_append, beq_self_eq_true _⟩
  unfold labelled
  refine (reads_next _).bind_line ?_
  rw [hsuffix]
  exact reads_pure _

/-- Parts that are read one after the other, each by a reader of its own. -/
theorem reads_mapM {reader : ι → LineReader α} {data : List α} {key : α → ι}
    {lines : α → List (List Char)} (h : ∀ d ∈ data, Reads (reader (key d)) (lines d) d) :
    Reads ((data.map key).mapM reader) (data.flatMap lines) data := by
  induction data with
  | nil => exact reads_pure []
  | cons d rest ih =>
    obtain ⟨hd, hrest⟩ := List.forall_mem_cons.1 h
    rw [List.map_cons, List.mapM_cons, List.flatMap_cons]
    refine hd.bind ?_
    rw [← List.append_nil (rest.flatMap lines)]
    exact (ih hrest).bind (reads_pure _)

/-- A text is read if its lines are read to the end, and none of them holds a newline. -/
theorem readText?_unlines {reader : LineReader α} {lines : List String} {a : α}
    (hlines : ∀ line ∈ lines, '\n' ∉ line.toList)
    (h : reader.run (lines.map String.toList) = some (a, [])) :
    reader.readText? (Text.unlines lines) = some a := by
  unfold readText?
  rw [Text.terminated_unlines hlines, h]

theorem Reads.run_eq {reader : LineReader α} {lines : List (List Char)} {a : α}
    (h : Reads reader lines a) : reader.run lines = some (a, []) := by
  have hrun := h []
  rwa [List.append_nil] at hrun

end LineReader

/-! ## Numbers -/

variable {K : Type} [Scalar K]

/-- Numbers that are told apart by their texts, none of which holds one of the marks. With a number
there is its negation. -/
structure LegibleNumbers (F : Set K) (marks : List Char) : Prop where
  neg_mem : ∀ v ∈ F, -v ∈ F
  injOn : Set.InjOn Scalar.fileText F
  unmarked : ∀ v ∈ F, ∀ c ∈ marks, c ∉ (Scalar.fileText v).toList

/-- The function reads the text of each of the numbers as the number. -/
def ReadsNumber (number : List Char → Option K) (F : Set K) : Prop :=
  ∀ v ∈ F, number (Scalar.fileText v).toList = some v

open Classical in
/-- The number of a set that has the given text, if there is one. -/
noncomputable def numberOf (F : Set K) (text : List Char) : Option K :=
  if h : ∃ v ∈ F, (Scalar.fileText v).toList = text then some h.choose else none

theorem LegibleNumbers.mono {F : Set K} {marks fewer : List Char} (h : LegibleNumbers F marks)
    (hfewer : fewer ⊆ marks) : LegibleNumbers F fewer :=
  ⟨h.neg_mem, h.injOn, fun v hv c hc => h.unmarked v hv c (hfewer hc)⟩

theorem LegibleNumbers.readsNumber {F : Set K} {marks : List Char} (h : LegibleNumbers F marks) :
    ReadsNumber (numberOf F) F := by
  intro v hv
  have hexists : ∃ u ∈ F, (Scalar.fileText u).toList = (Scalar.fileText v).toList := ⟨v, hv, rfl⟩
  unfold numberOf
  rw [dif_pos hexists]
  obtain ⟨hmem, htext⟩ := hexists.choose_spec
  exact congrArg some (h.injOn hmem hv (String.toList_inj.1 htext))

/-- Whether listed numbers are legible can be computed. -/
theorem legibleNumbers_of_list {numbers : List K} {marks : List Char}
    (hneg : ∀ v ∈ numbers, ∃ u ∈ numbers, u = -v)
    (htext : ∀ v ∈ numbers, ∀ u ∈ numbers, Scalar.fileText v = Scalar.fileText u → v = u)
    (hmarks : ∀ v ∈ numbers,
      ((Scalar.fileText v).toList.all fun c => decide (c ∉ marks)) = true) :
    LegibleNumbers {v | ∃ u ∈ numbers, u = v} marks := by
  refine ⟨?_, ?_, ?_⟩
  · rintro _ ⟨v, hv, rfl⟩
    exact hneg v hv
  · rintro _ ⟨v, hv, rfl⟩ _ ⟨u, hu, rfl⟩
    exact htext v hv u hu
  · rintro _ ⟨v, hv, rfl⟩ c hc hmem
    exact of_decide_eq_true (List.all_eq_true.1 (hmarks v hv) c hmem) hc

/-- A list of `count` numbers with commas, and other marks that are skipped. -/
def numbers? (number : List Char → Option K) (skip : List Char) (count : Nat) (text : List Char) :
    Option (List K) :=
  (((text.filter (· ∉ skip)).splitOn ',').take count).mapM number

section Numbers
variable {number : List Char → Option K} {F : Set K} {skip : List Char}

omit [Scalar K] in
/-- Texts between commas, with or without one more comma, fall into the texts again. -/
theorem take_splitOn_intercalate {fields : List (List Char)}
    (h : ∀ field ∈ fields, ',' ∉ field) {tail : List Char} (htail : tail = [] ∨ tail = [',']) :
    ((([','].intercalate fields) ++ tail).splitOn ',').take fields.length = fields := by
  induction fields with
  | nil => rfl
  | cons field rest ih =>
    obtain ⟨hfield, hrest⟩ := List.forall_mem_cons.1 h
    cases rest with
    | nil =>
      rw [List.intercalate_singleton]
      rcases htail with rfl | rfl
      · have hplain : ∀ c ∈ field, (c == ',') = false := fun c hc =>
          beq_false_of_ne fun heq => hfield (heq ▸ hc)
        rw [List.append_nil, List.splitOn, List.splitOnP_eq_singleton hplain]
        rfl
      · rw [Text.splitOn_append_cons hfield]
        rfl
    | cons next rest =>
      rw [List.intercalate_cons_cons, List.append_assoc, List.append_assoc, List.singleton_append,
        Text.splitOn_append_cons hfield, List.length_cons, List.take_succ_cons, ih hrest]

/-- Numbers are read out of their list, between marks that are skipped and before one more comma. -/
theorem numbers?_intercalate (hnumber : ReadsNumber number F)
    (hunmarked : ∀ v ∈ F, ∀ c ∈ ',' :: skip, c ∉ (Scalar.fileText v).toList)
    (hskip : ',' ∉ skip ∧ ' ' ∈ skip) {values : List K} (hvalues : ∀ v ∈ values, v ∈ F)
    (before after : List Char) (hbefore : before.filter (· ∉ skip) = [])
    (hafter : after.filter (· ∉ skip) = [] ∨ after.filter (· ∉ skip) = [',']) :
    numbers? number skip values.length
      (before ++ (", ".intercalate (values.map Scalar.fileText)).toList ++ after) =
      some values := by
  have hfields : ∀ field ∈ values.map fun v => (Scalar.fileText v).toList,
      ∀ c ∈ ',' :: skip, c ∉ field := by
    intro field hfield
    obtain ⟨v, hv, rfl⟩ := List.mem_map.1 hfield
    exact hunmarked v (hvalues v hv)
  have hkept : ∀ v ∈ values,
      (Scalar.fileText v).toList.filter (· ∉ skip) = (Scalar.fileText v).toList := by
    intro v hv
    refine List.filter_eq_self.2 fun c hc => decide_eq_true fun hmem => ?_
    exact hunmarked v (hvalues v hv) c (List.mem_cons_of_mem _ hmem) hc
  have hlist : (", ".intercalate (values.map Scalar.fileText)).toList.filter (· ∉ skip) =
      [','].intercalate (values.map fun v => (Scalar.fileText v).toList) := by
    have hsep : ", ".toList.filter (· ∉ skip) = [','] := by
      simp [hskip.1, hskip.2]
    rw [String.toList_intercalate, Text.filter_intercalate, hsep, List.map_map, List.map_map]
    exact congrArg _ (List.map_congr_left hkept)
  have htake := take_splitOn_intercalate
    (fun field hfield => hfields field hfield ',' List.mem_cons_self) hafter
  rw [List.length_map] at htake
  unfold numbers?
  rw [List.filter_append, List.filter_append, hbefore, List.nil_append, hlist, htake,
    Text.mapM_map_eq_some fun v hv => hnumber v (hvalues v hv)]

end Numbers

/-! ## The header -/

namespace Sdpa

open LineReader Text

/-- Numbers that each end in a blank. -/
def sizes? (text : List Char) : Option (List Nat) :=
  (terminated ' ' text).mapM natural?

/-- Takes the number of variables, the number of blocks, the block sizes and the objective, and
returns the objective and the block sizes. -/
def header (number : List Char → Option K) : LineReader (List K × List Nat) := do
  let ndim ← natural? (← labelled " = ndim")
  let nblocks ← natural? (← labelled " = nblocks")
  let sizes ← sizes? (← labelled "= blockstruct")
  let objective ← numbers? number [' '] ndim (← labelled " = objcoeffs")
  if sizes.length = nblocks then pure (objective, sizes) else failure

omit [Scalar K] in
theorem sizes?_join (sizes : List Nat) :
    sizes? (String.join (sizes.map fun n => Nat.repr n ++ " ")).toList = some sizes := by
  have hparts : terminated ' ' (String.join (sizes.map fun n => Nat.repr n ++ " ")).toList =
      sizes.map fun n => (Nat.repr n).toList := by
    have hjoin : (String.join (sizes.map fun n => Nat.repr n ++ " ")).toList =
        (sizes.map fun n => (Nat.repr n).toList).flatMap (· ++ [' ']) := by
      rw [String.toList_join, List.flatMap_map, List.flatMap_map]
      exact List.flatMap_congr fun n _ => String.toList_append
    rw [hjoin, terminated_flatMap]
    intro part hpart
    obtain ⟨n, -, rfl⟩ := List.mem_map.1 hpart
    exact not_mem_natRepr rfl n
  unfold sizes?
  rw [hparts, mapM_map_eq_some fun n _ => natural?_repr n]

variable {S : Type → Type} [Storage S] {number : List Char → Option K} {F : Set K}

theorem reads_header (hnumber : ReadsNumber number F)
    (hunmarked : ∀ v ∈ F, ∀ c ∈ [',', ' '], c ∉ (Scalar.fileText v).toList)
    {p : NumericProblem S K} (hobjective : ∀ v ∈ p.objective, v ∈ F) :
    Reads (header number) ((headerLines p).map String.toList) (p.objective, p.blockSizes) := by
  have hlist : numbers? number [' '] p.variableCount
      (", ".intercalate (p.objective.map Scalar.fileText)).toList = some p.objective := by
    have hread := numbers?_intercalate hnumber hunmarked (by simp) hobjective [] [] rfl (.inl rfl)
    rwa [List.nil_append, List.append_nil] at hread
  unfold header headerLines
  refine (reads_labelled _ _).bind_line (Reads.bind_some (natural?_repr _) ?_)
  refine (reads_labelled _ _).bind_line (Reads.bind_some (natural?_repr _) ?_)
  refine (reads_labelled _ _).bind_line (Reads.bind_some (sizes?_join _) ?_)
  refine (reads_labelled _ _).bind_line (Reads.bind_some hlist ?_)
  rw [if_pos (by simp [NumericProblem.blockSizes])]
  exact reads_pure _

omit [Storage S] in
theorem newline_not_mem_intercalate {values : List K}
    (hunbroken : ∀ v ∈ values, '\n' ∉ (Scalar.fileText v).toList) :
    '\n' ∉ (", ".intercalate (values.map Scalar.fileText)).toList := by
  rw [String.toList_intercalate]
  intro hc
  rcases mem_of_mem_intercalate hc with hc | ⟨part, hpart, hc⟩
  · simp at hc
  · rw [List.map_map, List.mem_map] at hpart
    obtain ⟨v, hv, rfl⟩ := hpart
    exact hunbroken v hv hc

theorem newline_not_mem_headerLines {p : NumericProblem S K}
    (hunbroken : ∀ v ∈ p.objective, '\n' ∉ (Scalar.fileText v).toList) :
    ∀ line ∈ headerLines p, '\n' ∉ line.toList := by
  have hdigits : ∀ n : Nat, '\n' ∉ (Nat.repr n).toList := not_mem_natRepr rfl
  have hsizes : '\n' ∉ (String.join (p.blockSizes.map fun n => Nat.repr n ++ " ")).toList := by
    rw [String.toList_join, List.mem_flatMap]
    rintro ⟨part, hpart, hc⟩
    obtain ⟨n, -, rfl⟩ := List.mem_map.1 hpart
    rw [String.toList_append, List.mem_append] at hc
    exact hc.elim (hdigits n) (by simp)
  unfold headerLines
  simp only [List.forall_mem_cons, String.toList_append, List.mem_append, not_or]
  refine ⟨⟨hdigits _, ?_⟩, ⟨hdigits _, ?_⟩, ⟨hsizes, ?_⟩,
    ⟨newline_not_mem_intercalate hunbroken, ?_⟩, nofun⟩ <;> simp

end Sdpa

end Semidefinite
