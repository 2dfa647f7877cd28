import TinDox.Edits
import TinDox.Plain
import TinDox.Survival

/-! Lock soundness. The guard of `rm`, `rename` and `mv` compares native strings; it protects what
it is meant to protect as long as directories are entered by plain paths and entries are addressed
by plain names. -/

namespace TinDox

open Lexical DirTree FileSystem PathBasedCommand

variable {srv : ServerContext} {around : Surroundings} {fs fs' : FileSystem} {k : Key}

namespace FileSystem

/-- A directory stays a directory and a file stays a file. -/
def SameKind (fs fs' : FileSystem) (k : Key) : Prop :=
  (fs.get k = some .dir → fs'.get k = some .dir) ∧
  ∀ i, fs.get k = some (.file i) → ∃ j, fs'.get k = some (.file j)

theorem SameKind.of_get (h : fs'.get k = fs.get k) : SameKind fs fs' k := ⟨fun hd => h.trans hd, fun i hi => ⟨i, h.trans hi⟩⟩

theorem SameKind.of_view (h : ∀ x, fs.view k = some x → fs'.view k = some x) : SameKind fs fs' k := by
  refine ⟨fun hd => view_eq_dir.mp (h _ (view_eq_dir.mpr hd)), fun i hi => ?_⟩
  obtain ⟨j, hj, -⟩ := view_eq_file.mp (h _ (view_file hi))
  exact ⟨j, hj⟩

theorem Moves.sameKind {o n : Key} (h : Moves fs fs' o n) (hk : ¬ o <+: k) : SameKind fs fs' k := by
  by_cases hn : n <+: k
  · obtain ⟨rest, rfl⟩ := hn
    by_cases hr : rest = []
    · subst hr
      have hget : fs'.get n = fs.get o := by simp [h.get_eq]
      rw [List.append_nil]
      rcases h.replaced with hf | ⟨i, j, hi, hj⟩ | ⟨hd, hd'⟩
      · exact ⟨fun hd => by simp [hf] at hd, fun i hi => by simp [hf] at hi⟩
      · exact ⟨fun hd => by simp [hi] at hd, fun _ _ => ⟨j, hget.trans hj⟩⟩
      · exact ⟨fun _ => hget.trans hd', fun i hi => by simp [hd] at hi⟩
    · have hf := h.empty rest hr
      exact ⟨fun hd => by simp [hf] at hd, fun i hi => by simp [hf] at hi⟩
  · exact .of_get (by rw [h.get_eq, if_neg hn, if_neg hk])

theorem WellFormed.sameKind_rename {old new : Path} (hw : fs.WellFormed) (h : fs.rename old new = .ok fs')
    (hk : ¬ old.cString.key <+: k) : SameKind fs fs' k := by
  obtain ⟨-, ⟨rfl, -⟩ | hm⟩ := hw.rename h
  · exact .of_get rfl
  · exact hm.sameKind hk

end FileSystem

/-- The lock begins with the spelling of the location. -/
def Guards (lock : Path) (k : Key) : Prop := (Path.ofKey k).native <+: lock.native

/-- The guard sees a lock that begins with the spelling of a location below the path. -/
theorem Surroundings.NotLocked.not_above {j : Key} {lock : Path} (h : around.NotLocked (Path.ofKey j))
    (hl : lock ∈ around.locks) (hg : Guards lock k) : ¬ j <+: k := by
  intro hjk
  have hstart : (Path.ofKey j).native <+: lock.native := (Path.ofKey_prefix_ofKey hjk).trans hg
  rw [← List.isPrefixOf_iff_prefix, ← Path.startsWith, h.startsWith hl] at hstart
  exact Bool.false_ne_true hstart

/-- A directory that is locked by a plain path, outside of the configuration directory. -/
def DirLocked (srv : ServerContext) (fs : FileSystem) (p : Path) : Prop := srv.Proper p ∧ fs.get p.key = some .dir

/-- A file that is locked by a path that spells its location. -/
def FileLocked (srv : ServerContext) (fs : FileSystem) (p : Path) : Prop :=
  ∃ k n i, p.cString = Path.ofKey (k ++ [n]) ∧ fs.get (k ++ [n]) = some (.file i) ∧ ¬ srv.configKey <+: k

/-- The places that have to be kept: what the locks stand for, and the root. -/
structure Holds (srv : ServerContext) (locks : List Path) (k : Key) : Prop where
  guarded : (∃ lock ∈ locks, Guards lock k) ∨ k = srv.root.names
  outside : ∀ n, ¬ srv.configKey ++ [n] <+: k

structure Session.Sound (srv : ServerContext) (fs : FileSystem) (s : Session) : Prop where
  current : ∀ cur ∈ s.context.currentPathLock, DirLocked srv fs cur ∧ srv.root.names.length ≤ cur.key.length
  pending : ∀ token ∈ s.context.downloadToken, FileLocked srv fs token.path
  download : ∀ token ∈ s.downloadManager.token, FileLocked srv fs token.path
  upload : ∀ token ∈ s.uploadManager.token, DirLocked srv fs token.path.parentPath

theorem not_prefix_of_outside (h : ¬ srv.configKey <+: k) (n : Bytes) : ¬ srv.configKey ++ [n] <+: k :=
  fun hh => h ((List.prefix_append _ _).trans hh)

theorem DirLocked.holds {s : Session} {p lock : Path} (h : DirLocked srv fs p) (hl : lock ∈ s.locks)
    (hp : p.native <+: lock.native) : Holds srv s.locks p.key :=
  ⟨.inl ⟨lock, hl, h.1.1.ofKey_prefix_native.trans hp⟩, not_prefix_of_outside h.1.2⟩

theorem DirLocked.mono {p : Path} (h : DirLocked srv fs p) (hk : SameKind fs fs' p.key) : DirLocked srv fs' p :=
  ⟨h.1, hk.1 h.2⟩

theorem FileLocked.mono {s : Session} {p : Path} (h : FileLocked srv fs p) (hl : p ∈ s.locks)
    (hk : ∀ k, Holds srv s.locks k → SameKind fs fs' k) : FileLocked srv fs' p := by
  obtain ⟨k, n, i, hp, hi, hout⟩ := h
  have hholds : Holds srv s.locks (k ++ [n]) := by
    refine ⟨.inl ⟨p, hl, ?_⟩, fun m hm => ?_⟩
    · rw [Guards, ← hp]
      exact List.takeWhile_prefix _
    · have hlen := hm.length_le
      rw [List.length_append, List.length_append, List.length_singleton, List.length_singleton] at hlen
      have hpre : srv.configKey <+: k ++ [n] := (List.prefix_append _ _).trans hm
      exact hout (List.prefix_of_prefix_length_le hpre (List.prefix_append k [n]) (by omega))
  obtain ⟨j, hj⟩ := (hk _ hholds).2 i hi
  exact ⟨k, n, j, hp, hj, hout⟩

theorem Session.Sound.mono {s : Session} (h : s.Sound srv fs) (hk : ∀ k, Holds srv s.locks k → SameKind fs fs' k) :
    s.Sound srv fs' where
  current cur hcur := by
    obtain ⟨hd, hdeep⟩ := h.current cur hcur
    have hl : cur ∈ s.locks := by simp [Session.locks, ClientContext.locks, Option.mem_def.mp hcur]
    exact ⟨hd.mono (hk _ (hd.holds hl (List.prefix_refl _))), hdeep⟩
  pending token ht := by
    have hl : token.path ∈ s.locks := by simp [Session.locks, ClientContext.locks, Option.mem_def.mp ht]
    exact (h.pending token ht).mono hl hk
  download token ht := by
    have hl : token.path ∈ s.locks := by simp [Session.locks, Option.mem_def.mp ht]
    exact (h.download token ht).mono hl hk
  upload token ht := by
    have hl : token.path ∈ s.locks := by simp [Session.locks, Option.mem_def.mp ht]
    have hd := h.upload token ht
    exact hd.mono (hk _ (hd.holds hl token.path.parentPath_prefix_native))

/-- A name that addresses an entry of the current directory: it is not empty and has no NUL. -/
def PlainName (name : Bytes) : Prop := name ≠ [] ∧ (0 : Byte) ∉ name

/-- What the guard needs from a request: directories are entered by plain paths, entries are moved
and removed by plain names, and a resumed upload goes to a plainly spelled directory. -/
structure PlainRequest (srv : ServerContext) (fs : FileSystem) (c : ClientContext) (r : Request) : Prop where
  cd : r.name = ascii "cd" → PlainField srv r.fields
  rm : r.name = ascii "rm" → ∀ name, parseSingleName r.fields = .ok name →
    PlainName name.native ∧ name.native ≠ ascii "." ∧ name.native ≠ ascii ".."
  rename : r.name = ascii "rename" → ∀ oname nname, Rename.parseFields r.fields = .ok (.rename oname nname) →
    PlainName oname.native
  mv : r.name = ascii "mv" → ∀ field name, findField r.fields (ascii "name") = some field →
    field.getString = some name → PlainName name
  ul : r.name = ascii "ul" → ∀ name size, Ul.parseFields r.fields = .ok (.ul name size true) →
    ∀ token ∈ c.authToken, ∀ path sz off,
      Ul.parseBackup srv fs token.username = some ⟨some path, sz, off⟩ →
        srv.Proper (Path.mk path).parentPath ∧ fs.isDirectory (Path.mk path).parentPath = true

def PlainAction (srv : ServerContext) (S : Server) : Action → Prop
  | .request fd r _ _ => ∀ s ∈ S.lookup fd, PlainRequest srv S.fs s.context r
  | _ => True

theorem holds_root (srv : ServerContext) (locks : List Path) : Holds srv locks srv.root.names := by
  refine ⟨.inr rfl, fun n hn => ?_⟩
  have hlen := hn.length_le
  simp only [ServerContext.configKey, List.length_append, List.length_singleton] at hlen
  omega

theorem entry_of_plain {cur name : Path} (hcur : cur.Plain) (hn : IsName name.native) (hz : (0 : Byte) ∉ name.native) :
    cur / name = Path.ofKey (cur.key ++ [name.native]) ∧ (cur / name).cString.key = cur.key ++ [name.native] := by
  have htake : name.native.takeWhile (· ≠ 0) = name.native := by
    rw [List.takeWhile_eq_self_iff]
    intro c hc
    simpa using fun he : c = 0 => hz (he ▸ hc)
  refine ⟨hcur.append_name hn.2.2.2, ?_⟩
  have hkey := hcur.key_cString_append hn.2.2.2
  rwa [htake, Path.classify_name hn] at hkey

/-- What may be moved or removed by a plain name is below the root and holds nothing that is locked. -/
theorem Holds.not_above {cur : Path} {n : Bytes} (h : Holds srv around.locks k)
    (hdeep : srv.root.names.length ≤ cur.key.length) (hl : around.NotLocked (Path.ofKey (cur.key ++ [n]))) :
    ¬ cur.key ++ [n] <+: k := by
  rcases h.guarded with ⟨lock, hlock, hg⟩ | rfl
  · exact hl.not_above hlock hg
  · intro hpre
    have hlen := hpre.length_le
    rw [List.length_append, List.length_singleton] at hlen
    omega

variable {c : ClientContext} {r : Request}

theorem Relocates.source {old new : Path} (h : Relocates srv fs c r old new) (hplain : PlainRequest srv fs c r)
    (hcur : ∀ cur ∈ c.currentPathLock, cur.Plain) {j : Key} (hl : fs.locate old = .ok j) :
    ∃ cur n, c.currentPathLock = some cur ∧ old = Path.ofKey (cur.key ++ [n]) ∧
      old.cString.key = cur.key ++ [n] := by
  have hentry : ∀ cur name : Path, c.currentPathLock = some cur → slash ∉ name.native → PlainName name.native →
      fs.locate (cur / name) = .ok j → ∃ cur' n, c.currentPathLock = some cur' ∧
        cur / name = Path.ofKey (cur'.key ++ [n]) ∧ (cur / name).cString.key = cur'.key ++ [n] := by
    intro cur name hc hs hp hl
    have htake : name.native.takeWhile (· ≠ 0) = name.native := by
      rw [List.takeWhile_eq_self_iff]
      intro b hb
      simpa using fun he : b = 0 => hp.2 (he ▸ hb)
    have hname := (locate_append (hcur cur hc) hs (by rw [htake]; exact hp.1) hl).1
    rw [htake] at hname
    obtain ⟨h1, h2⟩ := entry_of_plain (hcur cur hc) hname hp.2
    exact ⟨cur, name.native, hc, h1, h2⟩
  cases h with
  | rename current command parsed =>
    exact hentry _ _ current (Rename.parseFields_ok parsed).1 (hplain.rename command _ _ parsed) hl
  | mv current command parsed =>
    obtain ⟨-, field, hfield, hv, hs⟩ := TransportCommand.parseFields_ok parsed
    exact hentry _ _ current hs (hplain.mv command field _ hfield hv) hl

theorem Holds.sameKind_of_bookkeeping {locks : List Path} (hk : Holds srv locks k) (kept : Bookkeeping srv fs fs') :
    SameKind fs fs' k := by
  refine .of_view (fun x hx => (kept.view_eq k fun hown => ?_).trans hx)
  obtain ⟨n, rfl⟩ := hown.config
  exact hk.outside n (List.prefix_refl _)

/-- A request with plain names keeps what is locked. -/
theorem Edit.sameKind (h : Edit srv around fs c r fs') (hw : fs.WellFormed) (hplain : PlainRequest srv fs c r)
    (hcur : ∀ cur ∈ c.currentPathLock, cur.Plain ∧ srv.root.names.length ≤ cur.key.length)
    (hk : Holds srv around.locks k) : SameKind fs fs' k := by
  cases h with
  | own kept => exact hk.sameKind_of_bookkeeping kept
  | made _ located free entry => exact .of_view (fun x hx => hw.view_made (locate_ok located).2.1 free entry hx)
  | moved moves notLocked _ renamed =>
    obtain ⟨cur, n, hc, hold, hkey⟩ := moves.source hplain (fun cur hc => (hcur cur hc).1) (rename_ok renamed).1
    refine hw.sameKind_rename renamed ?_
    rw [hkey]
    exact hk.not_above (hcur cur hc).2 (hold ▸ notLocked)
  | removed removes notLocked =>
    cases removes with
    | @rm name cur current command parsed =>
      obtain ⟨hname, hdot, hdots⟩ := hplain.rm command name parsed
      obtain ⟨hpath, hkey⟩ := entry_of_plain (hcur cur current).1
        ⟨hname.1, hdot, hdots, parseSingleName_ok parsed⟩ hname.2
      refine .of_get ((hw.removeAll _).2.2 k ?_)
      rw [hkey]
      exact hk.not_above (hcur cur current).2 (hpath ▸ notLocked)

theorem DirLocked.bookkeeping {p : Path} (h : DirLocked srv fs p) (hkept : Bookkeeping srv fs fs') :
    DirLocked srv fs' p := by
  refine h.mono (.of_view (fun x hx => (hkept.view_eq _ ?_).trans hx))
  exact ServerContext.not_ownPlace_of_outside h.1.2

theorem AcceptsUpload.dirLocked {upload : UploadToken} (h : AcceptsUpload srv around fs c r fs' upload)
    (hw : fs.WellFormed) (hname : r.name = ascii "ul") (hplain : PlainRequest srv fs c r)
    (hcur : ∀ cur ∈ c.currentPathLock, DirLocked srv fs cur) : DirLocked srv fs upload.path.parentPath := by
  cases h with
  | @fresh name cur _ _ parsed current user accepted =>
    obtain ⟨⟨hp, hout⟩, hd⟩ := hcur cur current
    obtain ⟨-, -, hfree, -⟩ := ServerContext.uploadFile_ok accepted
    have hs := Ul.parseFields_ok parsed
    have hne : name.native ≠ [] := by
      intro hnil
      obtain ⟨n⟩ := name
      obtain rfl : n = [] := hnil
      obtain ⟨hp', hkey⟩ := hp.append_nil
      simp [pathExists, hw.resolve_plain hp' (hkey ▸ hd)] at hfree
    have hparent : (cur / name).parentPath = Path.ofKey cur.key := hp.parentPath_append hne hs
    have hkey : (Path.ofKey cur.key).key = cur.key := Path.key_ofKey cur.key_isName
    simp only [hparent]
    refine ⟨⟨Path.plain_ofKey cur.key_isName hp.key_noNul, ?_⟩, ?_⟩
    · rwa [hkey]
    · rwa [hkey]
  | resumed parsed user backup taken accepted =>
    obtain ⟨hproper, hdir⟩ := hplain.ul hname _ _ parsed _ user _ _ _ backup
    have hg := isDirectory_get hdir
    rw [hproper.1.cString_eq] at hg
    exact ⟨hproper, hg⟩

theorem fileLocked_of_download {cur name : Path} {token : DownloadToken} (hw : fs.WellFormed)
    (hcur : DirLocked srv fs cur) (hs : slash ∉ name.native) (h : srv.downloadFile fs (cur / name) = .ok token) :
    FileLocked srv fs token.path := by
  obtain ⟨hpath, hregular⟩ := ServerContext.downloadFile_ok h
  obtain ⟨i, hi⟩ := isRegularFile_get hregular
  rw [hpath]
  have hkey := hcur.1.1.key_cString_append hs
  -- neither the current directory nor the one above it is a file
  cases hclass : Path.classify (name.native.takeWhile (· ≠ 0)) with
  | here =>
    rw [hkey, hclass] at hi
    simp [follow, hcur.2] at hi
  | up =>
    have hparent : fs.get cur.key.dropLast = some .dir :=
      hw.closed.get_dropLast (show (fs.get cur.key).isSome by simp [hcur.2])
    rw [hkey, hclass] at hi
    simp [follow, hparent] at hi
  | child n =>
    have hs' : slash ∉ name.native.takeWhile (· ≠ 0) := fun hm => hs ((List.takeWhile_prefix _).subset hm)
    obtain ⟨rfl, -⟩ := Path.isName_of_classify hs' hclass
    rw [hkey, hclass] at hi
    exact ⟨cur.key, _, i, hcur.1.1.cString_append hs, hi, hcur.1.2⟩

theorem Session.sound_new (srv : ServerContext) (fs : FileSystem) : Session.Sound srv fs .new := by
  refine ⟨?_, ?_, ?_, ?_⟩ <;> simp [Session.new, ClientContext.new, DownloadManager.new, UploadManager.new]

theorem Effect.sound {s s' : Session} (h : Effect srv around fs s r fs' s') (hw : fs.WellFormed)
    (hacc : s.Accounted srv) (hroot : fs.get srv.root.names = some .dir) (hs : s.Sound srv fs)
    (hplain : PlainRequest srv fs s.context r) (hkept : s.Sound srv fs') : s'.Sound srv fs' := by
  cases h with
  | none | flags | logout | cp | mkdir | mv | rename | rm | unbacked =>
    exact ⟨hkept.current, hkept.pending, hkept.download, hkept.upload⟩
  | login _ _ locked =>
    refine ⟨fun cur hcur => ?_, hkept.pending, hkept.download, hkept.upload⟩
    rcases locked with rfl | ⟨rfl, -⟩
    · exact hkept.current cur hcur
    · obtain rfl := Option.some.inj hcur
      rw [DirLocked, Root.path_key]
      exact ⟨⟨srv.proper_root, hroot⟩, Nat.le_refl _⟩
  | @cd path command parsed =>
    refine ⟨fun cur hcur => ?_, hkept.pending, hkept.download, hkept.upload⟩
    obtain rfl := Option.some.inj hcur
    obtain ⟨hproper, hd, hdeep⟩ := parseFields_proper (hplain.cd command)
      (fun cur hc => (hs.current cur hc).1.1.1) parsed
    exact ⟨⟨hproper, hd⟩, hdeep⟩
  | @dl name cur token offset current _ parsed accepted _ =>
    refine ⟨hkept.current, fun t ht => ?_, hkept.download, hkept.upload⟩
    obtain rfl := Option.some.inj ht
    have hd := (hs.current cur current).1
    have hlocked : FileLocked srv fs token.path := fileLocked_of_download hw hd (Dl.parseFields_ok parsed) accepted
    exact hlocked
  | dls pending =>
    refine ⟨hkept.current, by simp, fun t ht => ?_, hkept.upload⟩
    rcases DownloadManager.startDownload_token ht with rfl | ht
    · exact hkept.pending _ pending
    · exact hkept.download t ht
  | @ul fs₁ upload command accepted =>
    refine ⟨hkept.current, hkept.pending, hkept.download, fun t ht => ?_⟩
    have htoken := UploadManager.startUpload_token srv fs₁ s.uploadManager upload
    obtain rfl : upload = t := Option.some.inj (htoken.symm.trans ht)
    obtain ⟨hkeep, hu⟩ := accepted.bookkeeping hw hacc
    have hd := accepted.dirLocked hw command hplain (fun cur hc => (hs.current cur hc).1)
    exact hd.bookkeeping (hkeep.trans (hacc.manager.startUpload hkeep.wellFormed hu).2)

namespace Server

/-- The locks of all clients are sound, and the root is there. -/
structure LocksSound (srv : ServerContext) (S : Server) : Prop where
  sane : Sane srv S
  root : S.fs.get srv.root.names = some .dir
  sessions : ∀ e ∈ S.sessions, e.2.Sound srv S.fs

variable {S S' : Server} {a : Action}

theorem mem_locks {e : Nat × Session} (he : e ∈ S.sessions) {lock : Path} (hl : lock ∈ e.2.locks) : lock ∈ S.locks :=
  List.mem_flatMap.mpr ⟨e, he, hl⟩

theorem Edit.sameKind (h : Edit srv S a fs') (hS : LocksSound srv S) (ha : PlainAction srv S a)
    (hk : Holds srv S.locks k) : SameKind S.fs fs' k := by
  have hw := hS.sane.wellFormed
  cases h with
  | own kept => exact hk.sameKind_of_bookkeeping kept
  | @request fd s r available lastWriteTime _ action found edit =>
    subst action
    have hs := hS.sessions _ (mem_of_lookup found)
    refine edit.sameKind hw (ha s found) (fun cur hc => ?_) hk
    obtain ⟨hd, hdeep⟩ := hs.current cur hc
    exact ⟨hd.1.1, hdeep⟩
  | written => exact .of_get rfl
  | finished _ found _ _ _ renamed =>
    have hmove : SameKind _ fs' k := (hw.write _ _).sameKind_rename renamed (fun hpre => by
      obtain ⟨n, hn⟩ := ((hS.sane.lookup found).manager.1.locate (rename_ok renamed).1).config
      exact hk.outside n (hn ▸ hpre))
    exact hmove

theorem LocksSound.transition (hS : LocksSound srv S) (ha : PlainAction srv S a) (h : Transition srv S a S') :
    LocksSound srv S' := by
  have hedit := h.edit hS.sane
  have hheld : ∀ fs', Edit srv S a fs' → ∀ e ∈ S.sessions, e.2.Sound srv fs' := by
    intro fs' hedit e he
    refine (hS.sessions e he).mono (fun k hk => hedit.sameKind hS ha ⟨?_, hk.outside⟩)
    rcases hk.guarded with ⟨lock, hl, hg⟩ | hroot
    · exact .inl ⟨lock, mem_locks he hl, hg⟩
    · exact .inr hroot
  refine ⟨hS.sane.transition h, (hedit.sameKind hS ha (holds_root srv _)).1 hS.root, ?_⟩
  refine h.forall_sessions (I := fun fs s => s.Sound srv fs) hS.sessions (Session.sound_new srv _)
    (fun _ s hs => ⟨by simpa using hs.current, by simpa using hs.pending, by simpa using hs.download,
      by simpa using hs.upload⟩) ?_ ?_
  · intro fd s fs' s' found hacts
    have hkept := hheld fs' (hacts.edit hS.sane found)
    have hs := hkept _ (mem_of_lookup found)
    refine ⟨?_, hkept⟩
    cases hacts with
    | request mode effect =>
      exact effect.sound hS.sane.wellFormed (hS.sane.lookup found) hS.root (hS.sessions _ (mem_of_lookup found))
        (ha s found) hs
    | chunk mode handled =>
      obtain ⟨-, mode', rfl⟩ := Session.handleUpload_cases handled
      refine ⟨hs.current, hs.pending, hs.download, fun t ht => ?_⟩
      obtain ⟨token, htoken, hpath⟩ := UploadManager.commitBytes_path ht
      rw [hpath]
      exact hs.upload token htoken
    | send mode handled =>
      obtain ⟨mode', rfl⟩ := Session.handleDownloadManagerOutput_cases handled
      exact ⟨hs.current, hs.pending, fun t ht => hs.download t (DownloadManager.send_token ht), hs.upload⟩
  · intro fd s action found
    exact hheld _ (.own ((hS.sane.lookup found).manager.destroy hS.sane.wellFormed))

end Server

/-- What a lock stands for exists: the current directory of every client, the file of every pending
or active download, and the directory of every active upload. -/
def LocksHold (S : Server) : Prop :=
  ∀ e ∈ S.sessions, (∀ cur ∈ e.2.context.currentPathLock, S.fs.isDirectory cur = true) ∧
    (∀ token ∈ e.2.context.downloadToken, S.fs.isRegularFile token.path = true) ∧
    (∀ token ∈ e.2.downloadManager.token, S.fs.isRegularFile token.path = true) ∧
    ∀ token ∈ e.2.uploadManager.token, S.fs.isDirectory token.path.parentPath = true

instance (S : Server) : Decidable (LocksHold S) := inferInstanceAs (Decidable (∀ e ∈ S.sessions, _ ∧ _ ∧ _ ∧ _))

theorem DirLocked.isDirectory {p : Path} (hw : fs.WellFormed) (h : DirLocked srv fs p) : fs.isDirectory p = true := by
  simp [FileSystem.isDirectory, status, hw.resolve_plain h.1.1 h.2, h.2]

theorem FileLocked.isRegularFile {p : Path} (hw : fs.WellFormed) (h : FileLocked srv fs p) :
    fs.isRegularFile p = true := by
  obtain ⟨k, n, i, hp, hi, -⟩ := h
  have hnames := hw.names (k ++ [n]) (by simp [hi])
  have hr : fs.resolve p = some (k ++ [n]) := by
    rw [← resolve_cString, hp]
    exact hw.resolve_ofKey (fun m hm => (hnames m hm).1) (fun m hm => (hnames m hm).2.1) (by simp [hi])
  simp [FileSystem.isRegularFile, status, hr, hi]

/-- Along a run of plain requests every lock is sound. -/
theorem locks_hold_of_plain {S : Server} (hw : fs.WellFormed) (hroot : fs.get srv.root.names = some .dir)
    (h : Runs.Reaches (Server.step srv) (PlainAction srv) (Server.start fs) S) : LocksHold S := by
  have hstart : Server.LocksSound srv (Server.start fs) := ⟨Server.sane_start srv hw, hroot, by simp [Server.start]⟩
  have hS : Server.LocksSound srv S :=
    h.invariant hstart (fun S a hS ha => hS.transition ha (Server.step_transition srv S a))
  have hw' := hS.sane.wellFormed
  intro e he
  have hs := hS.sessions e he
  refine ⟨fun cur hcur => ?_, fun token ht => ?_, fun token ht => ?_, fun token ht => ?_⟩
  · exact (hs.current cur hcur).1.isDirectory hw'
  · exact (hs.pending token ht).isRegularFile hw'
  · exact (hs.download token ht).isRegularFile hw'
  · exact (hs.upload token ht).isDirectory hw'

namespace Sample

/-- One client goes to a directory, and another one to a directory where it removes an entry. -/
def goAndRemove (path other name : String) : List Action :=
  loggedIn 0 "u" [request 0 "cd" [string "path" path]] ++
    loggedIn 1 "v" [request 1 "cd" [string "path" other], request 1 "rm" [string "name" name]]

def guardedCommands : List Bytes := [ascii "cd", ascii "rm", ascii "rename", ascii "mv", ascii "ul"]

theorem plainRequest_of_name (h : r.name ∉ guardedCommands) : PlainRequest srv fs c r := by
  refine ⟨fun hn => ?_, fun hn => ?_, fun hn => ?_, fun hn => ?_, fun hn => ?_⟩ <;>
    exact absurd (by simp [hn, guardedCommands]) h

theorem plainRequest_cd {v : String} (h : (srv.root.path.concat ⟨ascii v⟩).Plain)
    (ha : (Path.mk (ascii v)).isAbsolute = true) : PlainRequest srv fs c ⟨ascii "cd", [string "path" v]⟩ := by
  have hfield : findField [string "path" v] (ascii "path") = some (string "path" v) := by
    simp [findField, string]
  exact ⟨fun _ => .of_absolute hfield ha h, fun hn => (by decide : ascii "cd" ≠ ascii "rm").elim hn,
    fun hn => (by decide : ascii "cd" ≠ ascii "rename").elim hn, fun hn => (by decide : ascii "cd" ≠ ascii "mv").elim hn,
    fun hn => (by decide : ascii "cd" ≠ ascii "ul").elim hn⟩

theorem plainRequest_rm : PlainRequest srv fs c ⟨ascii "rm", [string "name" "a"]⟩ := by
  refine ⟨fun hn => absurd hn (by decide), fun _ name hp => ?_, fun hn => absurd hn (by decide),
    fun hn => absurd hn (by decide), fun hn => absurd hn (by decide)⟩
  have hname : parseSingleName [string "name" "a"] = .ok ⟨ascii "a"⟩ := by decide
  obtain rfl : (⟨ascii "a"⟩ : Path) = name := Except.ok.inj (hname.symm.trans hp)
  exact ⟨⟨by decide, by decide⟩, by decide, by decide⟩

end Sample

theorem locks_hold_of_plain_a :
    LocksHold (Runs.run (Server.step Sample.server) (Server.start Sample.twoDirectories)
      (Sample.goAndRemove "/a" "/" "a")) := by
  have hw : Sample.twoDirectories.WellFormed := by decide +kernel
  have hroot : Sample.twoDirectories.get Sample.server.root.names = some .dir := by decide
  refine locks_hold_of_plain hw hroot (Runs.AllMeet.reaches ?_)
  have hother : ∀ fd available lastWriteTime S username,
      PlainAction Sample.server S (.request fd (Sample.auth username) available lastWriteTime) :=
    fun _ _ _ _ _ s _ => Sample.plainRequest_of_name (show ascii "auth" ∉ Sample.guardedCommands by decide)
  exact ⟨trivial, hother _ _ _ _ _, fun s _ => Sample.plainRequest_cd (by decide) (by decide), trivial,
    hother _ _ _ _ _, fun s _ => Sample.plainRequest_cd (by decide) (by decide),
    fun s _ => Sample.plainRequest_rm, trivial⟩

/-- A second separator in the path of `cd`, or an empty name for `rm`, and the guard does not see
the lock. -/
theorem locked_directory_removed :
    ¬ LocksHold (Runs.run (Server.step Sample.server) (Server.start Sample.twoDirectories)
      (Sample.goAndRemove "//a" "/" "a")) ∧
    ¬ LocksHold (Runs.run (Server.step Sample.server) (Server.start Sample.twoDirectories)
      (Sample.goAndRemove "/a" "/a" "")) := by
  decide +kernel

end TinDox
