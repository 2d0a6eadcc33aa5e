import Mathlib.Data.List.TakeWhile
import TaskGrid.Proofs.Workers

/-!
# Worker names written as addresses

A worker may be named by an address `scheme://host:port/path`, where every part but the host may be
missing.  The orchestration node is recognised by its host, whatever the other parts are, or by its
whole name.  So the host has to be found in the name, which is done by cutting: off what precedes
the first `://`, then the first slash and what follows it, then the last colon and what follows it.

The first cut is made before the path is off.  In an address without a scheme it can therefore meet
a `://` that belongs to the path, and the name is then taken for one with a scheme, on another host.

* `HostName.go_eq_some_iff`: the first cut.
* `Address.hostOf_rest`: the two other cuts find the host.
* `Address.Misleads`: where the first cut is wrong.
* `Address.recognized`: exactly the addresses that do not mislead are judged by their host, and all
  of one host alike.
-/

namespace TaskGrid

namespace HostName

variable {b s r p : List Char}

/-- A text with a separator of a scheme in front. -/
def separated (r : List Char) : List Char := ':' :: '/' :: '/' :: r

/-- The text `r` is all that follows the first separator in `s`. -/
def FollowsFirst (s r : List Char) : Prop :=
  separated r <:+ s ∧ ∀ r', separated r' <:+ s → r'.length ≤ r.length

/-- A character at which no separator starts is passed over. -/
theorem go_cons {c : Char} (h : ∀ r, c :: s ≠ separated r) :
    afterScheme.go (c :: s) = afterScheme.go s :=
  afterScheme.go.eq_2 c s fun r hc hs => h r (by rw [hc, hs, separated])

theorem separated_suffix_cons {c : Char} (h : ∀ r, c :: s ≠ separated r) :
    separated r <:+ c :: s ↔ separated r <:+ s := by
  rw [List.suffix_cons_iff]
  exact or_iff_right fun he => h r he.symm

/-- The first cut finds what follows the first separator. -/
theorem go_eq_some_iff : afterScheme.go s = some r ↔ FollowsFirst s r := by
  induction s using afterScheme.go.induct with
  | case1 t =>
    rw [afterScheme.go, Option.some_inj]
    constructor
    · rintro rfl
      exact ⟨List.suffix_rfl, fun r' hr' => by simpa [separated] using hr'.length_le⟩
    · rintro ⟨hr, hmax⟩
      have hlen : t.length ≤ r.length := hmax t List.suffix_rfl
      have heq := hr.eq_of_length_le (by simpa [separated] using hlen)
      exact (List.cons.inj (List.cons.inj (List.cons.inj heq).2).2).2.symm
  | case2 c t h ih =>
    have hno (x : List Char) : c :: t ≠ separated x := fun he =>
      h x (List.cons.inj he).1 (List.cons.inj he).2
    rw [go_cons hno, ih, FollowsFirst, FollowsFirst]
    simp only [separated_suffix_cons hno]
  | case3 => simp [afterScheme.go, FollowsFirst, separated]

/-- A scheme is cut off together with its separator. -/
theorem go_append_separated (h : ':' ∉ b) (r : List Char) :
    afterScheme.go (b ++ separated r) = some r := by
  induction b with
  | nil => rfl
  | cons c b ih =>
    obtain ⟨hc, hb⟩ := not_or.mp (mt List.mem_cons.mpr h)
    rw [List.cons_append, go_cons fun x he => hc (List.cons.inj he).1.symm, ih hb]

theorem ne_of_not_mem {c : Char} (h : c ∉ s) : ∀ x ∈ s, decide (x ≠ c) = true :=
  fun _ hx => decide_eq_true fun he => h (he ▸ hx)

theorem beforePath_append (h : '/' ∉ s) (p : List Char) : beforePath (s ++ '/' :: p) = s := by
  rw [beforePath, List.takeWhile_append_of_pos (ne_of_not_mem h),
    List.takeWhile_cons_of_neg (by simp), List.append_nil]

theorem beforePath_of_not_mem (h : '/' ∉ s) : beforePath s = s :=
  List.takeWhile_eq_self_iff.mpr (ne_of_not_mem h)

theorem beforePort_append (s : List Char) (h : ':' ∉ p) : beforePort (s ++ ':' :: p) = s := by
  have hp : ':' ∉ p.reverse := mt List.mem_reverse.mp h
  rw [beforePort, if_pos (by simp), List.reverse_append, List.reverse_cons, List.append_assoc,
    List.dropWhile_append_of_pos (ne_of_not_mem hp)]
  simp

theorem beforePort_of_not_mem (h : ':' ∉ s) : beforePort s = s := if_neg h

/-- The host of a text without a scheme. -/
def hostOf (s : List Char) : String := String.ofList (beforePort (beforePath s))

theorem ofName_eq (name : String) : ofName name = hostOf (afterScheme name.toList) := rfl

theorem length_beforePort_le (s : List Char) : (beforePort s).length ≤ s.length := by
  unfold beforePort
  split
  · have hdrop : (s.reverse.dropWhile fun c => decide (c ≠ ':')).length ≤ s.reverse.length :=
      (List.dropWhile_suffix _).length_le
    rw [List.length_reverse] at hdrop
    rw [List.length_reverse, List.length_drop]
    omega
  · exact Nat.le_refl _

/-- A host is not longer than the text that it is found in. -/
theorem length_hostOf_le (s : List Char) : (hostOf s).toList.length ≤ s.length := by
  rw [hostOf, String.toList_ofList]
  exact Nat.le_trans (length_beforePort_le _) (List.takeWhile_prefix _).length_le

end HostName

/-- A text that does not contain a character by which addresses are cut. -/
def Undelimited (s : String) : Prop := ':' ∉ s.toList ∧ '/' ∉ s.toList

instance (s : String) : Decidable (Undelimited s) := inferInstanceAs (Decidable (_ ∧ _))

/-- A worker name by its parts. -/
structure Address where
  /-- What stands before `://`. -/
  scheme : Option String := none
  /-- The host. -/
  host : String
  /-- What follows a colon after the host. -/
  port : Option String := none
  /-- What follows a slash after host and port. -/
  path : Option String := none
  /-- The scheme cannot be cut. -/
  undelimited_scheme : ∀ s ∈ scheme, Undelimited s := by decide
  /-- The host cannot be cut. -/
  undelimited_host : Undelimited host := by decide
  /-- The port cannot be cut. -/
  undelimited_port : ∀ s ∈ port, Undelimited s := by decide

namespace Address

open HostName

variable {a b : Address}

/-- The characters of an address from its host on. -/
def rest (a : Address) : List Char :=
  a.host.toList ++ a.port.elim [] (fun s => ':' :: s.toList) ++
    a.path.elim [] (fun s => '/' :: s.toList)

/-- The written form. -/
def text (a : Address) : String :=
  String.ofList (a.scheme.elim a.rest fun s => s.toList ++ separated a.rest)

/-- Where the path is cut off at the first slash and the port at the last colon, the host is
left. -/
theorem hostOf_rest (a : Address) : hostOf a.rest = a.host := by
  have hpath : beforePath a.rest = a.host.toList ++ a.port.elim [] (fun s => ':' :: s.toList) := by
    have hno : '/' ∉ a.host.toList ++ a.port.elim [] (fun s => ':' :: s.toList) := by
      rw [List.mem_append, not_or]
      refine ⟨a.undelimited_host.2, ?_⟩
      cases hp : a.port with
      | none => simp
      | some s => simpa using (a.undelimited_port s hp).2
    unfold rest
    cases a.path with
    | none => simpa using beforePath_of_not_mem hno
    | some s => exact beforePath_append hno s.toList
  have hport : beforePort (a.host.toList ++ a.port.elim [] (fun s => ':' :: s.toList)) =
      a.host.toList := by
    cases hp : a.port with
    | none => simpa using beforePort_of_not_mem a.undelimited_host.1
    | some s => exact beforePort_append _ (a.undelimited_port s hp).1
  rw [hostOf, hpath, hport, String.ofList_toList]

/-- In an address without a scheme there is a `://` all the same, and what follows it is on another
host. -/
def Misleads (a : Address) : Prop :=
  a.scheme = none ∧ ∃ r, FollowsFirst a.text.toList r ∧ hostOf r ≠ a.host

theorem toList_text_of_scheme (hs : a.scheme = none) : a.text.toList = a.rest := by
  rw [text, hs, String.toList_ofList, Option.elim_none]

/-- The host of an address is found in its text unless the address misleads. -/
theorem ofName_text_eq_iff : ofName a.text = a.host ↔ ¬ a.Misleads := by
  rw [ofName_eq, afterScheme, Misleads]
  cases hs : a.scheme with
  | some s =>
    have hcut : afterScheme.go a.text.toList = some a.rest := by
      rw [text, hs, String.toList_ofList, Option.elim_some]
      exact go_append_separated (a.undelimited_scheme s hs).1 a.rest
    simp [hcut, hostOf_rest]
  | none =>
    simp only [← go_eq_some_iff]
    cases hcut : afterScheme.go a.text.toList with
    | none => simp [toList_text_of_scheme hs, hostOf_rest]
    | some r => simp

/-- An address misleads only by its path: there is no scheme, and a `://` has to come from
somewhere. -/
theorem Misleads.path_ne_none (h : a.Misleads) : a.path ≠ none := by
  obtain ⟨hs, r, ⟨hr, -⟩, -⟩ := h
  intro hp
  have hmem : '/' ∈ a.rest := by
    rw [toList_text_of_scheme hs] at hr
    exact hr.subset (by simp [separated])
  rw [rest, hp, Option.elim_none, List.append_nil, List.mem_append] at hmem
  rcases hmem with hmem | hmem
  · exact a.undelimited_host.2 hmem
  · cases hport : a.port with
    | none => simp [hport] at hmem
    | some s =>
      rw [hport, Option.elim_some] at hmem
      exact (a.undelimited_port s hport).2 (by simpa using hmem)

end Address

namespace Pool

variable {p : Pool} {name : String}

/-- A name is that of the orchestration node by its host or as a whole. -/
theorem isLocal_iff : p.isLocal name = true ↔
    HostName.ofName name = "localhost" ∨ HostName.ofName name ∈ p.localNodes ∨
      name ∈ p.localNodes := by
  have hlocal : name = "localhost" → HostName.ofName name = "localhost" := by
    rintro rfl
    decide +kernel
  simp only [isLocal, Bool.or_eq_true, beq_iff_eq, List.any_eq_true]
  constructor
  · rintro ((h | h) | ⟨n, hn, rfl | rfl⟩)
    · exact .inl (hlocal h)
    · exact .inl h
    · exact .inr (.inr hn)
    · exact .inr (.inl hn)
  · rintro (h | h | h)
    · exact .inl (.inr h)
    · exact .inr ⟨_, h, .inr rfl⟩
    · exact .inr ⟨_, h, .inl rfl⟩

/-- An address is that of the orchestration node if its host is, or if it is configured as it
stands. -/
def IsHome (p : Pool) (a : Address) : Prop :=
  a.host = "localhost" ∨ a.host ∈ p.localNodes ∨ a.text ∈ p.localNodes

instance (p : Pool) (a : Address) : Decidable (p.IsHome a) :=
  inferInstanceAs (Decidable (_ ∨ _ ∨ _))

theorem isLocal_text_iff {a : Address} (h : ¬ a.Misleads) (p : Pool) :
    p.isLocal a.text = true ↔ p.IsHome a := by
  rw [isLocal_iff, Address.ofName_text_eq_iff.mpr h, IsHome]

/-- Where the same worker or none is registered under two keys, and their names are judged alike, an
offer leads to the same worker. -/
theorem view_add_congr {key key' : WorkerKey} (hw : p.worker? key = p.worker? key')
    (hl : p.isLocal key.name = p.isLocal key'.name) (offered : Capacity) (adaptor : Adaptor) :
    (p.add key offered adaptor).1 = { (p.add key' offered adaptor).1 with key } := by
  simp only [add, hw, hl]
  rfl

end Pool

namespace Address

variable {a : Address}

/-- What the first cut leaves of a misleading address is shorter than the address. -/
theorem Misleads.ofName_text_ne (h : a.Misleads) : HostName.ofName a.text ≠ a.text := by
  obtain ⟨-, r, hr, -⟩ := h
  have hlen : r.length < a.text.toList.length := by
    have hsuffix := hr.1.length_le
    simp only [HostName.separated, List.length_cons] at hsuffix
    omega
  intro heq
  rw [HostName.ofName_eq, HostName.afterScheme, HostName.go_eq_some_iff.mpr hr,
    Option.getD_some] at heq
  have hle := HostName.length_hostOf_le r
  rw [heq] at hle
  omega

/-- For a misleading address there is a pool in which it is misjudged: one in which only the host
that was found, or only the host of the address, is the orchestration node. -/
theorem Misleads.exists_pool (h : a.Misleads) :
    ∃ p : Pool, ¬ (p.isLocal a.text = true ↔ p.IsHome a) := by
  have hne : HostName.ofName a.text ≠ a.host := fun he => ofName_text_eq_iff.mp he h
  by_cases hlocal : a.host = "localhost"
  · refine ⟨{}, fun hiff => ?_⟩
    rcases Pool.isLocal_iff.mp (hiff.mpr (.inl hlocal)) with hn | hn | hn
    · exact hne (hn.trans hlocal.symm)
    · cases hn
    · cases hn
  · refine ⟨{ localNodes := [HostName.ofName a.text] }, fun hiff => ?_⟩
    have hmem : Pool.isLocal { localNodes := [HostName.ofName a.text] } a.text = true :=
      Pool.isLocal_iff.mpr (.inr (.inl (List.mem_singleton_self _)))
    rcases hiff.mp hmem with hn | hn | hn
    · exact hlocal hn
    · exact hne (List.mem_singleton.mp hn).symm
    · exact h.ofName_text_ne (List.mem_singleton.mp hn).symm

/-- An address is judged by its host, or as it stands, in every pool exactly if it does not mislead,
which only an address without a scheme and with a path can do.  Two addresses of one host that do
not mislead, and are not configured as they stand, are treated alike: an offer under the one leads
to the same worker as under the other, with the same unit kept back or none. -/
theorem recognized (a : Address) :
    ((∀ p : Pool, p.isLocal a.text = true ↔ p.IsHome a) ↔ ¬ a.Misleads) ∧
      (a.Misleads → a.scheme = none ∧ a.path ≠ none) ∧
      ∀ b : Address, b.host = a.host → ¬ a.Misleads → ¬ b.Misleads →
        ∀ p : Pool, a.text ∉ p.localNodes → b.text ∉ p.localNodes →
          ∀ key key' : WorkerKey, key.name = a.text → key'.name = b.text →
            p.worker? key = p.worker? key' → ∀ offered adaptor,
              (p.add key offered adaptor).1 = { (p.add key' offered adaptor).1 with key } := by
  refine ⟨⟨fun hall hm => ?_, Pool.isLocal_text_iff⟩, fun hm => ⟨hm.1, hm.path_ne_none⟩, ?_⟩
  · obtain ⟨p, hp⟩ := hm.exists_pool
    exact hp (hall p)
  · intro b hhost ha hb p hna hnb key key' hkey hkey' hw offered adaptor
    refine Pool.view_add_congr hw (Bool.eq_iff_iff.mpr ?_) offered adaptor
    rw [hkey, hkey', Pool.isLocal_text_iff ha, Pool.isLocal_text_iff hb, Pool.IsHome, Pool.IsHome,
      hhost]
    exact or_congr_right ⟨fun h => h.imp_right fun hn => absurd hn hna,
      fun h => h.imp_right fun hn => absurd hn hnb⟩

/-! ### A path with a locator in it -/

/-- An address with all its parts. -/
def complete : Address :=
  { scheme := some "http", host := "node1", port := some "46101", path := some "a://localhost" }

/-- The same address without scheme and port. -/
def curtailed : Address := { host := "node1", path := some "a://localhost" }

/-- Another address of the host. -/
def ported : Address := { host := "node1", port := some "22" }

/-- A pool that keeps a unit for the orchestration node, under its mere host. -/
def homely : Pool := { localNodes := ["node1"] }

/-- The one unit that is offered is kept back under either address of the host. -/
theorem recognized_complete :
    ¬ complete.Misleads ∧ homely.IsHome complete ∧
      homely.isLocal complete.text = true ∧
      (homely.add (.permanent complete.text) (.cpus 1) (.named "")).1 =
        { (homely.add (.permanent ported.text) (.cpus 1) (.named "")).1 with
          key := .permanent complete.text } ∧
      (homely.add (.permanent complete.text) (.cpus 1) (.named "")).1.withheld = .cpus 1 := by
  have hm : ¬ complete.Misleads := fun h => nomatch h.1
  have hm' : ¬ ported.Misleads := fun h => h.path_ne_none rfl
  have hhome : homely.IsHome complete := by decide +kernel
  refine ⟨hm, hhome, ((recognized complete).1.mpr hm homely).mpr hhome, ?_, by decide +kernel⟩
  exact (recognized complete).2.2 ported rfl hm hm' homely (by decide +kernel) (by decide +kernel)
    (.permanent complete.text) (.permanent ported.text) rfl rfl rfl _ _

/-- The shorter address is taken for that of another host, which its path names. -/
theorem not_forall_isLocal_iff_isHome :
    ¬ ∀ (p : Pool) (a : Address), p.isLocal a.text = true ↔ p.IsHome a := by
  intro hall
  have hlocal : ({} : Pool).isLocal curtailed.text = true := by decide +kernel
  have hhome : ¬ ({} : Pool).IsHome curtailed := by decide +kernel
  exact hhome ((hall {} curtailed).mp hlocal)

end Address

end TaskGrid
