import MapReduce.Lib.Interference
import MapReduce.Worker.Stdio

/-! A file system that several attempts use at the same time, and that can fail.

A read can stop early and a print can be stored in part; such a stream is
`lost`. `ferror` and `fclose` may fail for any reason, but a lost stream on which
`ferror` saw nothing is not closed without an error. A rename is one step.

What the attempts of one task owe each other is a `Publishing`: each writes its
own temporary files, a final file only ever holds its complete content, and the
inputs stay as they are.
-/

set_option autoImplicit false

namespace MapReduce

open Calls Interference

/-- What has happened on a stream: bytes were lost, and `ferror` has said so. -/
structure Stream where
  lost : Bool
  reported : Bool
  deriving DecidableEq, Repr

/-- What the environment decides about a call: whether it succeeds, and how many bytes get through. -/
structure Outcome where
  ok : Bool
  kept : Nat
  deriving DecidableEq, Repr

structure Disk (Id : Type) where
  fs : Fs
  streams : Id → Bytes → Stream

namespace Disk

variable {Id : Type}

def setFile (d : Disk Id) (path : Bytes) (content : Option Bytes) : Disk Id :=
  { d with fs := Function.update d.fs path content }

variable [DecidableEq Id]

def setStream (d : Disk Id) (id : Id) (path : Bytes) (stream : Stream) : Disk Id :=
  { d with streams := Function.update d.streams id (Function.update (d.streams id) path stream) }

/-- The calls of attempt `id`. -/
def serve : Service files Id Outcome (Disk Id)
  | id, .fopenRead path, o, d =>
    if o.ok then
      match d.fs path with
      | none => some (none, d)
      | some content =>
        -- The reads see the file as it is now, up to an error.
        some (some (content.take o.kept), d.setStream id path ⟨decide (o.kept < content.length), false⟩)
    else some (none, d)
  | id, .fopenWrite path, o, d =>
    if o.ok then some (true, (d.setFile path (some [])).setStream id path ⟨false, false⟩) else some (false, d)
  | id, .fprintf path text, o, d =>
    let stream := d.streams id path
    some ((), (d.setFile path ((d.fs path).map (· ++ text.take o.kept))).setStream id path
      { stream with lost := stream.lost || decide (o.kept < text.length) })
  | id, .ferror path, o, d =>
    let stream := d.streams id path
    some (!o.ok, d.setStream id path { stream with reported := stream.reported || !o.ok })
  | id, .fclose path, o, d =>
    let stream := d.streams id path
    if o.ok && stream.lost && !stream.reported then none else some (o.ok, d)
  | _, .rename old new, o, d =>
    if o.ok then
      match d.fs old with
      | none => some (false, d)
      | some content => some (true, (d.setFile old none).setFile new (some content))
    else some (false, d)
  | _, .alloc, o, d => some (o.ok, d)

end Disk

/-! ## What an attempt can rely on -/

/-- The temporary files and the streams of one attempt. -/
structure View where
  files : Fs
  streams : Bytes → Stream

namespace View

def setFile (v : View) (path : Bytes) (content : Option Bytes) : View :=
  { v with files := Function.update v.files path content }

def setStream (v : View) (path : Bytes) (stream : Stream) : View :=
  { v with streams := Function.update v.streams path stream }

def print (v : View) (path text : Bytes) (kept : Nat) : View :=
  (v.setFile path ((v.files path).map (· ++ text.take kept))).setStream path
    { v.streams path with lost := (v.streams path).lost || decide (kept < text.length) }

end View

/-- The files of one task, attempted by several: what is read, who writes what, and the final files. A final
file has a complete content only if the inputs are there. -/
structure Publishing (Id : Type) where
  stored : Fs
  inputs : List Bytes
  finals : List (Bytes × Option Bytes)
  temps : Id → List Bytes
  finals_unique : ∀ path left right, (path, left) ∈ finals → (path, right) ∈ finals → left = right
  temps_apart : ∀ i j path, path ∈ temps i → path ∈ temps j → i = j
  temps_not_final : ∀ i, ∀ path ∈ temps i, ∀ complete, (path, complete) ∉ finals
  inputs_not_temp : ∀ i, ∀ path ∈ inputs, path ∉ temps i
  inputs_not_final : ∀ path ∈ inputs, ∀ complete, (path, complete) ∉ finals

namespace Publishing

variable {Id : Type} (pub : Publishing Id)

def view (id : Id) (d : Disk Id) : View where
  files := fun path => if path ∈ pub.temps id then d.fs path else none
  streams := d.streams id

def Complete (d : Disk Id) (path : Bytes) : Prop :=
  ∃ content, (path, some content) ∈ pub.finals ∧ d.fs path = some content

def contract : Contract Id (Disk Id) where
  inv := fun d => (∀ path ∈ pub.inputs, d.fs path = pub.stored path) ∧
    ∀ path complete, (path, complete) ∈ pub.finals → d.fs path = none ∨ d.fs path = complete
  rely := fun id d d' => pub.view id d' = pub.view id d ∧ ∀ path, pub.Complete d path → pub.Complete d' path

/-- The file is as stored, once the final files in `done` are there. -/
def Readable (done : List Bytes) (path : Bytes) : Prop :=
  ∀ d, pub.contract.inv d → (∀ final ∈ done, pub.Complete d final) → d.fs path = pub.stored path

/-- Something about the attempt's own files, and final files that are there. -/
def owned (id : Id) (own : View → Prop) (done : List Bytes) : Assertion (pub.contract.rely id) where
  holds := fun d => own (pub.view id d) ∧ ∀ path ∈ done, pub.Complete d path
  stable := fun _ _ rely holds => ⟨rely.1 ▸ holds.1, fun path member => rely.2 path (holds.2 path member)⟩

variable {pub} {id : Id}

theorem readable_input {path : Bytes} (input : path ∈ pub.inputs) (done : List Bytes) : pub.Readable done path :=
  fun _ inv _ => inv.1 path input

theorem readable_final {done : List Bytes} {path : Bytes} (published : path ∈ done)
    (stored : (path, pub.stored path) ∈ pub.finals) : pub.Readable done path := by
  intro d _ there
  obtain ⟨content, final, found⟩ := there path published
  rw [found, pub.finals_unique path _ _ final stored]

theorem view_setFile {d : Disk Id} {path : Bytes} (mine : path ∈ pub.temps id) (content : Option Bytes) :
    pub.view id (d.setFile path content) = (pub.view id d).setFile path content := by
  have files : (pub.view id (d.setFile path content)).files = ((pub.view id d).setFile path content).files := by
    funext other
    by_cases same : other = path
    · subst same
      simp [view, Disk.setFile, View.setFile, mine]
    · simp [view, Disk.setFile, View.setFile, Function.update_of_ne same]
  exact congrArg (View.mk · (d.streams id)) files

theorem view_setFile_ne {d : Disk Id} {path : Bytes} (other : path ∉ pub.temps id) (content : Option Bytes) :
    pub.view id (d.setFile path content) = pub.view id d := by
  have files : (pub.view id (d.setFile path content)).files = (pub.view id d).files := by
    funext p
    by_cases same : p = path
    · subst same
      simp [view, other]
    · simp [view, Disk.setFile, Function.update_of_ne same]
  exact congrArg (View.mk · (d.streams id)) files

theorem files_view {d : Disk Id} {path : Bytes} (mine : path ∈ pub.temps id) :
    (pub.view id d).files path = d.fs path := if_pos mine

theorem Complete.not_temp {d : Disk Id} {path : Bytes} (complete : pub.Complete d path) : path ∉ pub.temps id := by
  obtain ⟨content, final, -⟩ := complete
  exact fun mine => pub.temps_not_final id path mine _ final

/-- A call that changes nothing but the attempt's own files and streams. -/
structure Private (pub : Publishing Id) (id : Id) (d d' : Disk Id) : Prop where
  fs : ∀ path, path ∉ pub.temps id → d'.fs path = d.fs path
  streams : ∀ other, other ≠ id → d'.streams other = d.streams other

theorem Private.view {d d' : Disk Id} (own : pub.Private id d d') {other : Id} (ne : other ≠ id) :
    pub.view other d' = pub.view other d := by
  have files : (pub.view other d').files = (pub.view other d).files := by
    funext path
    by_cases mine : path ∈ pub.temps other
    · rw [files_view mine, files_view mine]
      exact own.fs path fun clash => ne (pub.temps_apart other id path mine clash)
    · simp [Publishing.view, mine]
  simp only [Publishing.view] at files ⊢
  rw [files, own.streams other ne]

theorem private_setFile {path : Bytes} (mine : path ∈ pub.temps id) (d : Disk Id) (content : Option Bytes) :
    pub.Private id d (d.setFile path content) :=
  ⟨fun other outside => Function.update_of_ne (fun same => outside (by rwa [same])) _ _, fun _ _ => rfl⟩

theorem Private.refl (pub : Publishing Id) (id : Id) (d : Disk Id) : pub.Private id d d :=
  ⟨fun _ _ => rfl, fun _ _ => rfl⟩

theorem Private.trans {d mid d' : Disk Id} (first : pub.Private id d mid) (second : pub.Private id mid d') :
    pub.Private id d d' :=
  ⟨fun path outside => (second.fs path outside).trans (first.fs path outside),
    fun other ne => (second.streams other ne).trans (first.streams other ne)⟩

/-- One final file gets its complete content, and nothing else changes but the attempt's own files. -/
structure PublishedStep (pub : Publishing Id) (id : Id) (new content : Bytes) (d d' : Disk Id) : Prop where
  final : (new, some content) ∈ pub.finals
  here : d'.fs new = some content
  others : ∀ path, path ≠ new → path ∉ pub.temps id → d'.fs path = d.fs path

theorem published_rename {old new content : Bytes} (mine : old ∈ pub.temps id)
    (final : (new, some content) ∈ pub.finals) (d : Disk Id) :
    pub.PublishedStep id new content d ((d.setFile old none).setFile new (some content)) where
  final := final
  here := by simp [Disk.setFile]
  others := by
    intro path ne outside
    have apart : path ≠ old := fun same => outside (by rwa [same])
    simp [Disk.setFile, Function.update_of_ne ne, Function.update_of_ne apart]

theorem PublishedStep.complete {new content : Bytes} {d d' : Disk Id} (step : pub.PublishedStep id new content d d')
    {path : Bytes} (complete : pub.Complete d path) : pub.Complete d' path := by
  by_cases same : path = new
  · subst same
    exact ⟨content, step.final, step.here⟩
  · obtain ⟨text, final, found⟩ := complete
    exact ⟨text, final, (step.others path same (Complete.not_temp ⟨text, final, found⟩)).trans found⟩

theorem PublishedStep.inv {new content : Bytes} {d d' : Disk Id} (step : pub.PublishedStep id new content d d')
    (inv : pub.contract.inv d) : pub.contract.inv d' := by
  constructor
  · intro path input
    have ne : path ≠ new := by
      rintro rfl
      exact pub.inputs_not_final path input _ step.final
    rw [step.others path ne (pub.inputs_not_temp id path input)]
    exact inv.1 path input
  · intro path complete final
    by_cases same : path = new
    · subst same
      exact .inr (step.here.trans (pub.finals_unique path _ _ step.final final))
    · rw [step.others path same fun clash => pub.temps_not_final id path clash _ final]
      exact inv.2 path complete final

/-- What is known behind `ferror` and `fclose` of one stream: `before` is the view in front of them, and if neither
reports an error, nothing was lost. -/
structure Closed (own : View → Prop) (path : Bytes) (failed closed : Bool) (before v : View) : Prop where
  own : own before
  same : ∃ stream, v = before.setStream path stream
  honest : failed = false → closed = true → (before.streams path).reported = false →
    (before.streams path).lost = false

/-- A reader has seen the whole input unless bytes were lost. -/
def Seen (pub : Publishing Id) (path seen : Bytes) (v : View) : Prop :=
  ∃ content, pub.stored path = some content ∧ v.streams path = ⟨decide (seen ≠ content), false⟩

/-- The temporary file holds the complete content of the final one. -/
def Filled (pub : Publishing Id) (temp final : Bytes) (v : View) : Prop :=
  ∃ content, (final, some content) ∈ pub.finals ∧ v.files temp = some content

theorem Closed.whole {own : View → Prop} {path seen : Bytes} {failed closed : Bool} {before v : View}
    (done : Closed own path failed closed before v) (reader : Seen pub path seen before) (quiet : failed = false)
    (clean : closed = true) : pub.stored path = some seen := by
  obtain ⟨content, stored, stream⟩ := reader
  have sound := done.honest quiet clean (by rw [stream])
  rw [stream] at sound
  have same : seen = content := by simpa using sound
  rw [stored, same]

variable [DecidableEq Id]

theorem view_setStream (d : Disk Id) (path : Bytes) (stream : Stream) :
    pub.view id (d.setStream id path stream) = (pub.view id d).setStream path stream := by
  simp [view, Disk.setStream, View.setStream]

theorem private_setStream (d : Disk Id) (path : Bytes) (stream : Stream) :
    pub.Private id d (d.setStream id path stream) :=
  ⟨fun _ _ => rfl, fun _ ne => Function.update_of_ne ne _ _⟩

theorem keeps_private {c : FileCall} {own : View → Prop} {after : c.Answer → View → Prop} {done : List Bytes}
    (step : ∀ d outcome answer d', pub.contract.inv d → (pub.owned id own done).holds d →
      Disk.serve id c outcome d = some (answer, d') → pub.Private id d d' ∧ after answer (pub.view id d')) :
    Keeps (I := files) Disk.serve pub.contract id c (pub.owned id own done) fun answer =>
      pub.owned id (after answer) done := by
  intro d outcome answer d' inv holds served
  obtain ⟨moved, now⟩ := step d outcome answer d' inv holds served
  have finals : ∀ path complete, (path, complete) ∈ pub.finals → d'.fs path = d.fs path :=
    fun path complete final => moved.fs path fun mine => pub.temps_not_final id path mine complete final
  have kept : ∀ path, pub.Complete d path → pub.Complete d' path := by
    rintro path ⟨content, final, there⟩
    exact ⟨content, final, (finals path _ final).trans there⟩
  refine ⟨⟨fun path input => ?_, fun path complete final => ?_⟩, fun other ne => ⟨moved.view ne, kept⟩, now,
    fun path member => kept path (holds.2 path member)⟩
  · rw [moved.fs path (pub.inputs_not_temp id path input)]
    exact inv.1 path input
  · rw [finals path complete final]
    exact inv.2 path complete final

/-! ## One rule for each call -/

section Rules

variable {own : View → Prop} {done : List Bytes}

theorem safe_alloc {after : Bool → View → Prop} (answered : ∀ ok v, own v → after ok v) :
    Safe Disk.serve pub.contract id alloc (pub.owned id own done) fun ok => pub.owned id (after ok) done := by
  refine safe_perform (keeps_private fun d outcome answer d' _ holds served => ?_)
  cases served
  exact ⟨.refl pub id d, answered _ _ holds.1⟩

theorem safe_fopenWrite {path : Bytes} (mine : path ∈ pub.temps id) {after : Bool → View → Prop}
    (opened : ∀ v, own v → after true ((v.setFile path (some [])).setStream path ⟨false, false⟩))
    (refused : ∀ v, own v → after false v) :
    Safe Disk.serve pub.contract id (fopenWrite path) (pub.owned id own done) fun ok =>
      pub.owned id (after ok) done := by
  refine safe_perform (keeps_private fun d outcome answer d' _ holds served => ?_)
  simp only [Disk.serve] at served
  split at served
  · cases served
    refine ⟨(private_setFile mine d _).trans (private_setStream _ _ _), ?_⟩
    rw [view_setStream, view_setFile mine]
    exact opened _ holds.1
  · cases served
    exact ⟨.refl pub id d, refused _ holds.1⟩

theorem safe_fprintf {path text : Bytes} (mine : path ∈ pub.temps id) {after : View → Prop}
    (printed : ∀ kept v, own v → after (v.print path text kept)) :
    Safe Disk.serve pub.contract id (fprintf path text) (pub.owned id own done) fun _ =>
      pub.owned id after done := by
  refine safe_perform (keeps_private fun d outcome answer d' _ holds served => ?_)
  cases served
  refine ⟨(private_setFile mine d _).trans (private_setStream _ _ _), ?_⟩
  rw [view_setStream, view_setFile mine, ← files_view mine]
  exact printed outcome.kept _ holds.1

theorem safe_ferror {path : Bytes} {after : Bool → View → Prop}
    (answered : ∀ failed v, own v → after failed
      (v.setStream path { v.streams path with reported := (v.streams path).reported || failed })) :
    Safe Disk.serve pub.contract id (ferror path) (pub.owned id own done) fun failed =>
      pub.owned id (after failed) done := by
  refine safe_perform (keeps_private fun d outcome answer d' _ holds served => ?_)
  cases served
  refine ⟨private_setStream d _ _, ?_⟩
  rw [view_setStream]
  exact answered _ _ holds.1

theorem safe_fclose {path : Bytes} {after : Bool → View → Prop}
    (closed : ∀ v, own v → ((v.streams path).reported = false → (v.streams path).lost = false) → after true v)
    (failed : ∀ v, own v → after false v) :
    Safe Disk.serve pub.contract id (fclose path) (pub.owned id own done) fun ok =>
      pub.owned id (after ok) done := by
  refine safe_perform (keeps_private fun d outcome answer d' _ holds served => ?_)
  simp only [Disk.serve] at served
  split at served
  · cases served
  next honest =>
    cases served
    refine ⟨.refl pub id d, ?_⟩
    cases ok : outcome.ok with
    | false => exact failed _ holds.1
    | true =>
      refine closed _ holds.1 fun unreported => ?_
      by_contra lost
      refine honest ?_
      rw [ok, show (d.streams id path).reported = false from unreported,
        show (d.streams id path).lost = true from Bool.eq_true_of_not_eq_false lost]
      rfl

theorem safe_close {β : Type} {path : Bytes} {next : Bool → Bool → Proc β}
    {post : β → Assertion (pub.contract.rely id)}
    (rest : ∀ failed closed, Safe Disk.serve pub.contract id (next failed closed)
      (pub.owned id (fun v => ∃ before, Closed own path failed closed before v) done) post) :
    Safe Disk.serve pub.contract id (do
      let failed ← ferror path
      let closed ← fclose path
      next failed closed) (pub.owned id own done) post := by
  have check : Safe Disk.serve pub.contract id (ferror path) (pub.owned id own done) fun failed =>
      pub.owned id (fun v => ∃ before, own before ∧
        v = before.setStream path ⟨(before.streams path).lost, (before.streams path).reported || failed⟩) done :=
    safe_ferror fun failed v holds => ⟨v, holds, rfl⟩
  refine check.bind fun failed => ?_
  have close : Safe Disk.serve pub.contract id (fclose path) (pub.owned id (fun v => ∃ before, own before ∧
        v = before.setStream path ⟨(before.streams path).lost, (before.streams path).reported || failed⟩) done)
      fun closed => pub.owned id (fun v => ∃ before, Closed own path failed closed before v) done := by
    refine safe_fclose ?_ ?_
    · rintro _ ⟨before, holds, rfl⟩ honest
      refine ⟨before, holds, ⟨_, rfl⟩, fun quiet _ clean => ?_⟩
      simpa [View.setStream, quiet, clean] using honest
    · rintro _ ⟨before, holds, rfl⟩
      exact ⟨before, holds, ⟨_, rfl⟩, by simp⟩
  exact close.bind (rest failed)

theorem safe_fopenRead {path : Bytes} (readable : pub.Readable done path)
    (own_stream : ∀ v stream, own v → own (v.setStream path stream)) :
    Safe Disk.serve pub.contract id (fopenRead path) (pub.owned id own done) fun answer =>
      pub.owned id (fun v => ∀ seen, answer = some seen → own v ∧ pub.Seen path seen v) done := by
  refine safe_perform (keeps_private fun d outcome answer d' inv holds served => ?_)
  simp only [Disk.serve] at served
  split at served
  · split at served
    · cases served
      exact ⟨.refl pub id d, by simp⟩
    next content found =>
      cases served
      refine ⟨private_setStream d _ _, ?_⟩
      rw [view_setStream]
      rintro seen ⟨⟩
      refine ⟨own_stream _ _ holds.1, content, (readable d inv holds.2).symm.trans found, ?_⟩
      have cut : decide (outcome.kept < content.length) = decide (content.take outcome.kept ≠ content) := by
        rw [decide_eq_decide, ← not_iff_not, Nat.not_lt, not_not]
        exact (List.take_eq_self_iff content).symm
      simp [View.setStream, cut]
  · cases served
    exact ⟨.refl pub id d, by simp⟩

theorem safe_failed (published : List Bytes) :
    Safe Disk.serve pub.contract id (pure false) (pub.owned id own done) fun ok =>
      pub.owned id (fun _ => True) (if ok then published else []) :=
  safe_pure fun _ _ _ => ⟨trivial, by simp⟩

theorem safe_rename {old new : Bytes} (mine : old ∈ pub.temps id) {after : View → Prop}
    (complete : ∀ v, own v → pub.Filled old new v) (moved : ∀ v, own v → after (v.setFile old none))
    (refused : ∀ v, own v → after v) :
    Safe Disk.serve pub.contract id (rename old new) (pub.owned id own done) fun ok =>
      pub.owned id after (if ok then done ++ [new] else done) := by
  refine safe_perform fun d outcome answer d' inv holds served => ?_
  obtain ⟨content, final, filled⟩ := complete _ holds.1
  have there : d.fs old = some content := (files_view mine).symm.trans filled
  have stay : ∀ other : Id, new ∉ pub.temps other := fun other clash => pub.temps_not_final other new clash _ final
  simp only [Disk.serve] at served
  split at served
  · rw [there] at served
    cases served
    have published := published_rename mine final d
    refine ⟨published.inv inv, fun other ne => ⟨?_, fun path => published.complete⟩, ?_, ?_⟩
    · rw [view_setFile_ne (stay other), (private_setFile mine d none).view ne]
    · rw [view_setFile_ne (stay id), view_setFile mine]
      exact moved _ holds.1
    · intro path member
      rcases List.mem_append.mp member with earlier | now
      · exact published.complete (holds.2 path earlier)
      · cases List.mem_singleton.mp now
        exact ⟨content, published.final, published.here⟩
  · cases served
    exact ⟨inv, fun _ _ => ⟨rfl, fun _ complete => complete⟩, refused _ holds.1, holds.2⟩

end Rules

end Publishing

end MapReduce
