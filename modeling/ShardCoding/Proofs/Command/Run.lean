import ShardCoding.Command.Basic
import ShardCoding.Proofs.Files.Change

/-!
# Commands on a tree of files

* `Command.on` : what a command gives on a tree, and the tree that it leaves; `on_bind`, `on_ofExcept`, `on_fileOr`, ... :
  one equation for each way to make a command;
* `Command.on_mapM_of_reads`, `on_forM_of_reads` : commands that only read, one after another;
* `Command.Achieves` : what a command does unless an operation on files fails; `Achieves.bind`, `achieves_forM_write`;
* `FileTree.grows_makeDirectories` : making directories takes nothing away.
-/

namespace ShardCoding

/-- A failure of an operation on files. -/
def CommandError.IsFileFailure : CommandError → Prop
  | file _ _ _ | encoding (.io _) | decoding (.io _) => True
  | _ => False

namespace Command

variable {α β : Type} {t t' : FileTree}

/-- What a command gives on a tree of files, and the tree that it leaves. -/
def on (x : Command (StateM FileTree) α) (t : FileTree) : Except CommandError α × FileTree := x.run t

theorem on_bind (x : Command (StateM FileTree) α) (f : α → Command (StateM FileTree) β) (t : FileTree) :
    (x >>= f).on t = match x.on t with
      | (.ok a, t') => (f a).on t'
      | (.error e, t') => (.error e, t') := by
  show (match x.on t with | (r, t') => ExceptT.bindCont f r t') = _
  cases x.on t with
  | mk r t' => cases r <;> rfl

theorem on_bind_of_ok {x : Command (StateM FileTree) α} {a : α} (h : x.on t = (.ok a, t'))
    (f : α → Command (StateM FileTree) β) : (x >>= f).on t = (f a).on t' := by rw [on_bind, h]

theorem on_bind_of_error {x : Command (StateM FileTree) α} {e : CommandError} (h : x.on t = (.error e, t'))
    (f : α → Command (StateM FileTree) β) : (x >>= f).on t = (.error e, t') := by rw [on_bind, h]

/-- A command that goes through has gone through its first part. -/
theorem exists_of_on_bind {x : Command (StateM FileTree) α} {f : α → Command (StateM FileTree) β} {b : β}
    {t'' : FileTree} (h : (x >>= f).on t = (.ok b, t'')) :
    ∃ a t', x.on t = (.ok a, t') ∧ (f a).on t' = (.ok b, t'') := by
  rw [on_bind] at h
  cases hx : x.on t with
  | mk r t' =>
    rw [hx] at h
    cases r with
    | error e => cases h
    | ok a => exact ⟨a, t', rfl, h⟩

theorem on_ofExcept {ε : Type} (failure : ε → CommandError) (x : Except ε α) (t : FileTree) :
    (ofExcept failure x : Command (StateM FileTree) α).on t = (x.mapError failure, t) := rfl

theorem on_fileOr (failure : IoKind → CommandError) (x : StateM FileTree (Except IoKind α)) (t : FileTree) :
    (fileOr failure x).on t = ((x t).1.mapError failure, (x t).2) := by
  cases hx : x t with
  | mk r t' =>
    show (x >>= _ : StateM FileTree (Except CommandError α)).run t = _
    rw [StateT.run_bind, show x.run t = pure (r, t') from hx]
    cases r <;> rfl

theorem on_readFile (failure : IoKind → CommandError) (p : Path) (t : FileTree) :
    (fileOr failure (FileSystem.readFile p : StateM FileTree _)).on t = ((t.read p).mapError failure, t) :=
  on_fileOr failure _ t

theorem on_openFile (failure : IoKind → CommandError) (p : Path) (t : FileTree) :
    (fileOr failure (FileSystem.openFile p : StateM FileTree _)).on t =
      (((t.find p).map fun _ => ()).mapError failure, t) := on_fileOr failure _ t

theorem on_isPresent (p : Path) (t : FileTree) :
    (liftM (FileSystem.isPresent p : StateM FileTree Bool) : Command (StateM FileTree) Bool).on t =
      (.ok (t.find p).isOk, t) := rfl

theorem on_writeFile (failure : IoKind → CommandError) (p : Path) (content : Bytes) (t : FileTree) :
    (fileOr failure (FileSystem.writeFile p content : StateM FileTree _)).on t = match t.write p content with
      | .ok t' => (.ok (), t')
      | .error kind => (.error (failure kind), t) := by
  have hchange : (FileSystem.writeFile p content : StateM FileTree _) t = match t.write p content with
      | .ok t' => (.ok (), t')
      | .error kind => (.error kind, t) := rfl
  rw [on_fileOr, hchange]
  cases t.write p content <;> rfl

theorem on_writeFile_of_ok {p : Path} {content : Bytes} (h : t.write p content = .ok t')
    (failure : IoKind → CommandError) :
    (fileOr failure (FileSystem.writeFile p content : StateM FileTree _)).on t = (.ok (), t') := by
  rw [on_writeFile, h]

/-! ## Failures of files -/

/-- Unless an operation on files fails, the command goes through, with a result and a tree for which `P` holds. -/
structure Achieves (x : Command (StateM FileTree) α) (t : FileTree) (P : α → FileTree → Prop) : Prop where
  outcome : match x.on t with
    | (.ok a, t') => P a t'
    | (.error e, _) => e.IsFileFailure

variable {P : α → FileTree → Prop} {Q : β → FileTree → Prop}

theorem achieves_of_ok {x : Command (StateM FileTree) α} {a : α} (h : x.on t = (.ok a, t')) (ha : P a t') :
    x.Achieves t P := by
  refine ⟨?_⟩
  rw [h]
  exact ha

theorem achieves_of_error {x : Command (StateM FileTree) α} {e : CommandError} (h : x.on t = (.error e, t'))
    (he : e.IsFileFailure) : x.Achieves t P := by
  refine ⟨?_⟩
  rw [h]
  exact he

theorem Achieves.bind {x : Command (StateM FileTree) α} {f : α → Command (StateM FileTree) β} (hx : x.Achieves t P)
    (hf : ∀ a t', P a t' → (f a).Achieves t' Q) : (x >>= f).Achieves t Q := by
  cases hrun : x.on t with
  | mk r t' =>
    have houtcome := hx.outcome
    rw [hrun] at houtcome
    cases r with
    | error e => exact achieves_of_error (on_bind_of_error hrun f) houtcome
    | ok a =>
      refine ⟨?_⟩
      rw [on_bind_of_ok hrun]
      exact (hf a t' houtcome).outcome

theorem Achieves.mono {P' : α → FileTree → Prop} {x : Command (StateM FileTree) α} (h : x.Achieves t P)
    (hsub : ∀ a t', P a t' → P' a t') : x.Achieves t P' := by
  cases hrun : x.on t with
  | mk r t' =>
    have houtcome := h.outcome
    rw [hrun] at houtcome
    cases r with
    | error e => exact achieves_of_error hrun houtcome
    | ok a => exact achieves_of_ok hrun (hsub a t' houtcome)

theorem Achieves.of_on {x : Command (StateM FileTree) α} {a : α} (h : x.Achieves t P) (hrun : x.on t = (.ok a, t')) :
    P a t' := by
  have houtcome := h.outcome
  rwa [hrun] at houtcome

theorem achieves_bind_of_ok {x : Command (StateM FileTree) α} {a : α} (h : x.on t = (.ok a, t'))
    {f : α → Command (StateM FileTree) β} (hf : (f a).Achieves t' Q) : (x >>= f).Achieves t Q := by
  refine ⟨?_⟩
  rw [on_bind_of_ok h]
  exact hf.outcome

theorem achieves_fileOr {failure : IoKind → CommandError} (hfailure : ∀ kind, (failure kind).IsFileFailure)
    {x : StateM FileTree (Except IoKind α)} (h : ∀ a, (x t).1 = .ok a → P a (x t).2) :
    (fileOr failure x).Achieves t P := by
  have hrun := on_fileOr failure x t
  cases hx : (x t).1 with
  | error kind => exact achieves_of_error (hrun.trans (by rw [hx]; rfl)) (hfailure kind)
  | ok a => exact achieves_of_ok (hrun.trans (by rw [hx]; rfl)) (h a hx)

theorem achieves_writeFile {failure : IoKind → CommandError} (hfailure : ∀ kind, (failure kind).IsFileFailure)
    (p : Path) (content : Bytes) (t : FileTree) :
    (fileOr failure (FileSystem.writeFile p content : StateM FileTree _)).Achieves t fun _ t' =>
      t.write p content = .ok t' := by
  have hrun := on_writeFile failure p content t
  cases hwrite : t.write p content with
  | error kind => exact achieves_of_error (hrun.trans (by rw [hwrite])) (hfailure kind)
  | ok t' => exact achieves_of_ok (hrun.trans (by rw [hwrite])) rfl

/-! ## Repeated commands -/

theorem on_mapM_of_reads {f : α → Command (StateM FileTree) β} {g : α → Except CommandError β} {as : List α}
    (h : ∀ a ∈ as, (f a).on t = (g a, t)) : (as.mapM f).on t = (as.mapM g, t) := by
  induction as with
  | nil => rfl
  | cons a as ih =>
    have ha := h a List.mem_cons_self
    have has := ih fun a' ha' => h a' (List.mem_cons_of_mem a ha')
    rw [List.mapM_cons, List.mapM_cons]
    cases hg : g a with
    | error e =>
      rw [on_bind_of_error (ha.trans (by rw [hg]))]
      rfl
    | ok b =>
      rw [on_bind_of_ok (ha.trans (by rw [hg])), on_bind, has]
      cases as.mapM g <;> rfl

theorem on_forM_cons (f : α → Command (StateM FileTree) Unit) (a : α) (as : List α) (t : FileTree) :
    ((a :: as).forM f).on t = (f a >>= fun _ => as.forM f).on t := rfl

theorem on_forM_of_reads {f : α → Command (StateM FileTree) Unit} {as : List α}
    (h : ∀ a ∈ as, (f a).on t = (.ok (), t)) : (as.forM f).on t = (.ok (), t) := by
  induction as with
  | nil => rfl
  | cons a as ih =>
    rw [on_forM_cons, on_bind_of_ok (h a List.mem_cons_self)]
    exact ih fun a' ha' => h a' (List.mem_cons_of_mem a ha')

/-- Files written one after another. -/
theorem achieves_forM_write {failure : α → IoKind → CommandError} (hfailure : ∀ a kind, (failure a kind).IsFileFailure)
    (path : α → Path) (content : α → Bytes) (as : List α) (t : FileTree) :
    (as.forM fun a => fileOr (failure a) (FileSystem.writeFile (path a) (content a))).Achieves t fun _ t' =>
      FileTree.writeEach path content as t = .ok t' := by
  induction as generalizing t with
  | nil => exact ⟨rfl⟩
  | cons a as ih =>
    refine (achieves_writeFile (hfailure a) (path a) (content a) t).bind fun _ t₁ hwrite => ?_
    exact (ih t₁).mono fun _ t' hrest => FileTree.writeEach_cons_eq_ok.2 ⟨t₁, hwrite, hrest⟩

end Command

/-! ## Directories -/

namespace FileTree

/-- Programs that take nothing away. -/
def Growing {α : Type} (x : StateM FileTree α) : Prop := ∀ t, Grows t (x t).2

section

variable {α β : Type}

theorem growing_pure (a : α) : Growing (pure a) := fun t => Grows.refl t

theorem Growing.bind {x : StateM FileTree α} {f : α → StateM FileTree β} (hx : Growing x) (hf : ∀ a, Growing (f a)) :
    Growing (x >>= f) := fun t => (hx t).trans (hf (x t).1 (x t).2)

end

theorem growing_makeDirectory (p : Path) : Growing (FileSystem.makeDirectory p : StateM FileTree _) := by
  intro t
  show Grows t (changeFiles (·.makeDirectory p) t).2
  unfold changeFiles
  dsimp only
  cases hmake : t.makeDirectory p with
  | ok t' => exact grows_makeDirectory hmake
  | error kind => exact Grows.refl t

theorem growing_ensureDirectory (p : Path) : Growing (ensureDirectory p) := by
  refine (growing_makeDirectory p).bind fun made => ?_
  cases made with
  | ok made => exact growing_pure _
  | error kind =>
    refine Growing.bind (fun t => Grows.refl t) fun found => ?_
    cases found <;> exact growing_pure _

theorem growing_makeDirectoriesWithin (depth : Nat) (p : Path) : Growing (makeDirectoriesWithin depth p) := by
  induction depth generalizing p with
  | zero => exact growing_pure _
  | succ depth ih =>
    unfold makeDirectoriesWithin
    split
    · exact growing_pure _
    · refine (growing_ensureDirectory p).bind fun ensured => ?_
      split
      · refine (ih p.parent).bind fun above => ?_
        cases above with
        | ok above => exact growing_ensureDirectory p
        | error kind => exact growing_pure _
      · exact growing_pure _

theorem grows_makeDirectories (p : Path) (t : FileTree) :
    Grows t ((makeDirectories p : StateM FileTree (Except IoKind Unit)) t).2 := growing_makeDirectoriesWithin _ p t

end FileTree

end ShardCoding
