import Mathlib.Logic.Function.Basic
import Statute.Base.Bytes

/-!
# Storing a certificate

`acmemanager.go`: a chain and its key are stored in two files.  `persistCert` writes both aside, syncs them
and renames them into place, the key first; `loadCert` reads the chain first and then the key.

`persistCert` is a machine with one phase for each operation on the file system; every operation but the
removal of a temporary file may fail.  A crash stops it anywhere and keeps what was synced.

* `step_held`, `run_held` — what is in the directory in each phase;
* `reads_cases` — a reader sees the old pair, the new pair, or the old chain with the new key;
* `persist_safe_iff` — so storing is crash safe exactly when that mixture is one of the two pairs.
-/

namespace Statute.Tls

open Statute.Base

/-! ### The directory -/

/-- The PEM texts of a chain and a key. -/
structure StoredPair where
  chain : Bytes
  key : Bytes
deriving DecidableEq

/-- The files of a host; the temporary ones have names of their own. -/
inductive CertFile where
  | crt | key | crtTmp | keyTmp
deriving DecidableEq

structure FileContent where
  data : Bytes
  synced : Bool
deriving DecidableEq

abbrev Dir := CertFile → Option FileContent

/-- A crash keeps what was synced, and no file appears. -/
def Crashed (before after : Dir) : Prop :=
  ∀ f, (∀ data, before f = some ⟨data, true⟩ → after f = some ⟨data, true⟩) ∧ (before f = none → after f = none)

/-- `os.Rename`. -/
def Dir.rename (d : Dir) (source target : CertFile) : Dir :=
  Function.update (Function.update d target (d source)) source none

/-- `os.Remove`. -/
def Dir.remove (d : Dir) (f : CertFile) : Dir := Function.update d f none

/-! ### `persistCert` -/

/-- The operation that comes next. -/
inductive PersistPhase where
  | encodeKey
  | createCrt | writeCrt | syncCrt | closeCrt
  | createKey | writeKey | syncKey | closeKey
  | renameKey | renameCrt
  /-- the removals before an error is returned -/
  | cleanup (files : List CertFile)
  | returned (ok : Bool)
deriving DecidableEq

/-- One operation of `persistCert` and `writeTempFile`, which succeeds or fails. -/
def persistStep (new : StoredPair) (ok : Bool) (s : PersistPhase × Dir) : PersistPhase × Dir :=
  let d := s.2
  match s.1 with
  | .encodeKey => if ok then (.createCrt, d) else (.returned false, d)
  | .createCrt => if ok then (.writeCrt, Function.update d .crtTmp (some ⟨[], false⟩)) else (.returned false, d)
  | .writeCrt =>
    if ok then (.syncCrt, Function.update d .crtTmp (some ⟨new.chain, false⟩)) else (.cleanup [.crtTmp], d)
  | .syncCrt =>
    if ok then (.closeCrt, Function.update d .crtTmp (some ⟨new.chain, true⟩)) else (.cleanup [.crtTmp], d)
  | .closeCrt => if ok then (.createKey, d) else (.cleanup [.crtTmp], d)
  | .createKey =>
    if ok then (.writeKey, Function.update d .keyTmp (some ⟨[], false⟩)) else (.cleanup [.crtTmp], d)
  | .writeKey =>
    if ok then (.syncKey, Function.update d .keyTmp (some ⟨new.key, false⟩)) else (.cleanup [.keyTmp, .crtTmp], d)
  | .syncKey =>
    if ok then (.closeKey, Function.update d .keyTmp (some ⟨new.key, true⟩)) else (.cleanup [.keyTmp, .crtTmp], d)
  | .closeKey => if ok then (.renameKey, d) else (.cleanup [.keyTmp, .crtTmp], d)
  | .renameKey => if ok then (.renameCrt, d.rename .keyTmp .key) else (.cleanup [.crtTmp, .keyTmp], d)
  | .renameCrt => if ok then (.returned true, d.rename .crtTmp .crt) else (.cleanup [.crtTmp], d)
  | .cleanup [] => (.returned false, d)
  | .cleanup (f :: files) => (.cleanup files, d.remove f)
  | .returned r => (.returned r, d)

/-- `persistCert` after some operations, given which of them succeed. -/
def persistRun (new : StoredPair) (s : PersistPhase × Dir) (oks : List Bool) : PersistPhase × Dir :=
  oks.foldl (fun s ok => persistStep new ok s) s

/-- A directory that holds a pair. -/
def storedDir (old : StoredPair) : Dir
  | .crt => some ⟨old.chain, true⟩
  | .key => some ⟨old.key, true⟩
  | .crtTmp | .keyTmp => none

/-! ### `loadCert` -/

/-- What `loadCert` finds. -/
inductive Loaded where
  | missing
  | noKey
  | unusable
  | pair (p : StoredPair)
deriving DecidableEq

/-- `loadCert` from what its two reads return; `keyPair` is whether `tls.X509KeyPair` accepts the texts. -/
def loadCert (keyPair : Bytes → Bytes → Bool) (crt key : Option FileContent) : Loaded :=
  match crt with
  | none => .missing
  | some chain =>
    match key with
    | none => .noKey
    | some key => if keyPair chain.data key.data then .pair ⟨chain.data, key.data⟩ else .unusable

/-- Storing `new` over `old` is crash safe: a reader at any time, between any two operations, and after a crash
finds one of the two pairs, and an error leaves no temporary file. -/
structure CrashSafe (keyPair : Bytes → Bytes → Bool) (old new : StoredPair) : Prop where
  concurrent : ∀ before between,
    loadCert keyPair ((persistRun new (.encodeKey, storedDir old) before).2 .crt)
      ((persistRun new (.encodeKey, storedDir old) (before ++ between)).2 .key) ∈ [.pair old, .pair new]
  crashed : ∀ before after, Crashed (persistRun new (.encodeKey, storedDir old) before).2 after →
    loadCert keyPair (after .crt) (after .key) ∈ [.pair old, .pair new]
  clean : ∀ oks, (persistRun new (.encodeKey, storedDir old) oks).1 = .returned false →
    (persistRun new (.encodeKey, storedDir old) oks).2 .crtTmp = none ∧
      (persistRun new (.encodeKey, storedDir old) oks).2 .keyTmp = none

/-! ### What is in the directory -/

/-- The two files of the pair. -/
def Dir.Holds (d : Dir) (chain key : Bytes) : Prop := d .crt = some ⟨chain, true⟩ ∧ d .key = some ⟨key, true⟩

/-- What each phase finds in the directory. -/
def Held (old new : StoredPair) (s : PersistPhase × Dir) : Prop :=
  let d := s.2
  match s.1 with
  | .encodeKey | .createCrt => d.Holds old.chain old.key ∧ d .crtTmp = none ∧ d .keyTmp = none
  | .writeCrt | .syncCrt => d.Holds old.chain old.key ∧ d .keyTmp = none
  | .closeCrt | .createKey => d.Holds old.chain old.key ∧ d .crtTmp = some ⟨new.chain, true⟩ ∧ d .keyTmp = none
  | .writeKey | .syncKey => d.Holds old.chain old.key ∧ d .crtTmp = some ⟨new.chain, true⟩
  | .closeKey | .renameKey =>
    d.Holds old.chain old.key ∧ d .crtTmp = some ⟨new.chain, true⟩ ∧ d .keyTmp = some ⟨new.key, true⟩
  | .renameCrt => d.Holds old.chain new.key ∧ d .crtTmp = some ⟨new.chain, true⟩ ∧ d .keyTmp = none
  | .cleanup files =>
    (d.Holds old.chain old.key ∨ d.Holds old.chain new.key) ∧ .crt ∉ files ∧ .key ∉ files ∧
      (d .crtTmp = none ∨ .crtTmp ∈ files) ∧ (d .keyTmp = none ∨ .keyTmp ∈ files)
  | .returned true => d.Holds new.chain new.key
  | .returned false =>
    (d.Holds old.chain old.key ∨ d.Holds old.chain new.key) ∧ d .crtTmp = none ∧ d .keyTmp = none

/-- Removing a temporary file keeps the pair. -/
theorem Dir.Holds.remove {d : Dir} {chain key : Bytes} (h : d.Holds chain key) {f : CertFile} (hcrt : f ≠ .crt)
    (hkey : f ≠ .key) : (d.remove f).Holds chain key := by
  rw [Dir.Holds, Dir.remove, Function.update_of_ne hcrt.symm, Function.update_of_ne hkey.symm]
  exact h

/-- A temporary file is gone or still to be removed. -/
theorem remove_gone {d : Dir} {f tmp : CertFile} {files : List CertFile} (h : d tmp = none ∨ tmp ∈ f :: files) :
    d.remove f tmp = none ∨ tmp ∈ files := by
  rw [Dir.remove]
  by_cases heq : tmp = f
  · rw [heq, Function.update_self]
    exact Or.inl rfl
  · rw [Function.update_of_ne heq]
    rcases h with hnone | hmem
    · exact Or.inl hnone
    · exact Or.inr ((List.mem_cons.mp hmem).resolve_left heq)

variable {old new : StoredPair} {s : PersistPhase × Dir}

/-- **One operation** leads to what the next phase expects. -/
theorem step_held (h : Held old new s) (ok : Bool) : Held old new (persistStep new ok s) := by
  obtain ⟨phase, d⟩ := s
  cases phase with
  | cleanup files =>
    obtain ⟨hholds, hcrt, hkey, hcrtTmp, hkeyTmp⟩ := h
    cases files with
    | nil => exact ⟨hholds, hcrtTmp.resolve_right List.not_mem_nil, hkeyTmp.resolve_right List.not_mem_nil⟩
    | cons f files =>
      rw [List.mem_cons, not_or] at hcrt hkey
      refine ⟨?_, hcrt.2, hkey.2, remove_gone hcrtTmp, remove_gone hkeyTmp⟩
      rcases hholds with hold | hmixed
      · exact Or.inl (hold.remove (Ne.symm hcrt.1) (Ne.symm hkey.1))
      · exact Or.inr (hmixed.remove (Ne.symm hcrt.1) (Ne.symm hkey.1))
  | returned r => exact h
  | _ =>
    -- a failure leads to the removal of what was created; a success touches one file, or renames one
    cases ok <;> simp_all [Held, persistStep, Dir.Holds, Dir.rename]

/-- **A run** stays within its phases. -/
theorem run_held (h : Held old new s) (oks : List Bool) : Held old new (persistRun new s oks) := by
  induction oks generalizing s with
  | nil => exact h
  | cons ok oks ih => exact ih (step_held h ok)

theorem held_start (old new : StoredPair) : Held old new (.encodeKey, storedDir old) := ⟨⟨rfl, rfl⟩, rfl, rfl⟩

/-- The pair in the directory is the old one, the new one after a success, or the old chain with the new
key. -/
theorem Held.holds (h : Held old new s) :
    s.2.Holds old.chain old.key ∨ s.2.Holds old.chain new.key ∨
      s.1 = .returned true ∧ s.2.Holds new.chain new.key := by
  obtain ⟨phase, d⟩ := s
  cases phase with
  | renameCrt => exact Or.inr (Or.inl h.1)
  | cleanup files => exact h.1.imp_right Or.inl
  | returned r =>
    cases r with
    | true => exact Or.inr (Or.inr ⟨rfl, h⟩)
    | false => exact h.1.imp_right Or.inl
  | _ => exact Or.inl h.1

theorem run_returned (new : StoredPair) (r : Bool) (d : Dir) (oks : List Bool) :
    persistRun new (.returned r, d) oks = (.returned r, d) := by
  induction oks with
  | nil => rfl
  | cons ok oks ih => exact ih

theorem run_append (new : StoredPair) (s : PersistPhase × Dir) (before between : List Bool) :
    persistRun new s (before ++ between) = persistRun new (persistRun new s before) between :=
  List.foldl_append

/-- A reader that takes the chain at one time and the key later sees the old pair, the old chain with the new
key, or the new pair. -/
theorem reads_cases (h : Held old new s) (between : List Bool) :
    ∃ chain key, s.2 .crt = some ⟨chain, true⟩ ∧ (persistRun new s between).2 .key = some ⟨key, true⟩ ∧
      (chain = old.chain ∧ key = old.key ∨ chain = old.chain ∧ key = new.key ∨
        chain = new.chain ∧ key = new.key) := by
  have hlater := (run_held h between).holds
  have hkey : (persistRun new s between).2 .key = some ⟨old.key, true⟩ ∨
      (persistRun new s between).2 .key = some ⟨new.key, true⟩ := by
    rcases hlater with hold | hmixed | ⟨-, hnew⟩
    · exact Or.inl hold.2
    · exact Or.inr hmixed.2
    · exact Or.inr hnew.2
  have hfromOld : s.2 .crt = some ⟨old.chain, true⟩ → ∃ chain key, s.2 .crt = some ⟨chain, true⟩ ∧
      (persistRun new s between).2 .key = some ⟨key, true⟩ ∧
      (chain = old.chain ∧ key = old.key ∨ chain = old.chain ∧ key = new.key ∨
        chain = new.chain ∧ key = new.key) := by
    intro hcrt
    rcases hkey with hk | hk
    · exact ⟨_, _, hcrt, hk, Or.inl ⟨rfl, rfl⟩⟩
    · exact ⟨_, _, hcrt, hk, Or.inr (Or.inl ⟨rfl, rfl⟩)⟩
  rcases h.holds with hold | hmixed | ⟨hreturned, hnew⟩
  · exact hfromOld hold.1
  · exact hfromOld hmixed.1
  · -- nothing changes after the return
    obtain ⟨phase, d⟩ := s
    obtain rfl : phase = .returned true := hreturned
    rw [run_returned]
    exact ⟨_, _, hnew.1, hnew.2, Or.inr (Or.inr ⟨rfl, rfl⟩)⟩

/-- What `loadCert` makes of it, where the mixture is one of the two pairs. -/
theorem loadCert_mem {keyPair : Bytes → Bytes → Bool} (hold : keyPair old.chain old.key = true)
    (hnew : keyPair new.chain new.key = true)
    (hcondition : new.key = old.key ∨ new.chain = old.chain) {chain key : Bytes}
    (hcases : chain = old.chain ∧ key = old.key ∨ chain = old.chain ∧ key = new.key ∨
      chain = new.chain ∧ key = new.key) :
    loadCert keyPair (some ⟨chain, true⟩) (some ⟨key, true⟩) ∈ [.pair old, .pair new] := by
  have hpairs : chain = old.chain ∧ key = old.key ∨ chain = new.chain ∧ key = new.key := by
    rcases hcases with h | ⟨hchain, hkey⟩ | h
    · exact Or.inl h
    · rcases hcondition with hsame | hsame
      · exact Or.inl ⟨hchain, hkey.trans hsame⟩
      · exact Or.inr ⟨hchain.trans hsame.symm, hkey⟩
    · exact Or.inr h
  rw [loadCert]
  rcases hpairs with ⟨rfl, rfl⟩ | ⟨rfl, rfl⟩
  · rw [if_pos hold]
    exact List.mem_cons_self
  · rw [if_pos hnew]
    exact List.mem_cons_of_mem _ List.mem_cons_self

/-- The operations up to the rename of the key. -/
theorem run_renameKey (old new : StoredPair) :
    (persistRun new (.encodeKey, storedDir old) (List.replicate 10 true)).2 .crt = some ⟨old.chain, true⟩ ∧
      (persistRun new (.encodeKey, storedDir old) (List.replicate 10 true)).2 .key = some ⟨new.key, true⟩ := by
  exact ⟨rfl, rfl⟩

/-- **Storing a certificate.**  Let the stored pair and the new one each be accepted.  Whatever fails, wherever
the process crashes and however a reader comes in between, the reader finds one of the two pairs, and an error
leaves no temporary file, if and only if the new key is the stored key or the new chain is the stored
chain. -/
theorem persist_safe_iff (keyPair : Bytes → Bytes → Bool) (old new : StoredPair)
    (hold : keyPair old.chain old.key = true) (hnew : keyPair new.chain new.key = true) :
    CrashSafe keyPair old new ↔ new.key = old.key ∨ new.chain = old.chain := by
  constructor
  · intro hsafe
    have hread := hsafe.concurrent (List.replicate 10 true) []
    obtain ⟨hcrt, hkey⟩ := run_renameKey old new
    rw [List.append_nil, hcrt, hkey, loadCert] at hread
    dsimp only at hread
    split at hread
    · rcases List.mem_pair.mp hread with hpair | hpair
      · have hkey : (⟨old.chain, new.key⟩ : StoredPair).key = old.key := by rw [Loaded.pair.inj hpair]
        exact Or.inl hkey
      · have hchain : (⟨old.chain, new.key⟩ : StoredPair).chain = new.chain := by rw [Loaded.pair.inj hpair]
        exact Or.inr hchain.symm
    · rcases List.mem_pair.mp hread with hpair | hpair
      · exact absurd hpair Loaded.noConfusion
      · exact absurd hpair Loaded.noConfusion
  · intro hcondition
    refine ⟨?_, ?_, ?_⟩
    · intro before between
      rw [run_append]
      obtain ⟨chain, key, hcrt, hkey, hcases⟩ := reads_cases (run_held (held_start old new) before) between
      rw [hcrt, hkey]
      exact loadCert_mem hold hnew hcondition hcases
    · intro before after hcrashed
      obtain ⟨chain, key, hcrt, hkey, hcases⟩ := reads_cases (run_held (held_start old new) before) []
      rw [(hcrashed .crt).1 chain hcrt, (hcrashed .key).1 key hkey]
      exact loadCert_mem hold hnew hcondition hcases
    · intro oks hreturned
      have hheld := run_held (held_start old new) oks
      rw [Held, hreturned] at hheld
      exact hheld.2

def sampleKeyPair (chain key : Bytes) : Bool :=
  chain == lit "a" && key == lit "1" || chain == lit "b" && key == lit "2"

/-- A chain that is renewed with its key. -/
theorem persist_safe_same_key :
    CrashSafe (fun _ key => key == lit "1") ⟨lit "a", lit "1"⟩ ⟨lit "b", lit "1"⟩ := by
  have hkey : (lit "1" == lit "1") = true := by decide
  exact (persist_safe_iff _ _ _ hkey hkey).mpr (Or.inl rfl)

/-- A crash between the two renames leaves the old chain with the new key, which `loadCert` cannot use. -/
theorem crash_between_renames :
    sampleKeyPair (lit "a") (lit "1") = true ∧ sampleKeyPair (lit "b") (lit "2") = true ∧
    ∃ after, Crashed (persistRun ⟨lit "b", lit "2"⟩ (.encodeKey, storedDir ⟨lit "a", lit "1"⟩)
        (List.replicate 10 true)).2 after ∧
      loadCert sampleKeyPair (after .crt) (after .key) = .unusable := by
  refine ⟨by decide, by decide, _, fun f => ⟨fun data h => h, fun h => h⟩, ?_⟩
  obtain ⟨hcrt, hkey⟩ := run_renameKey ⟨lit "a", lit "1"⟩ ⟨lit "b", lit "2"⟩
  rw [hcrt, hkey]
  decide

end Statute.Tls
