import Leano.HttpRequests.Response

namespace Leano.HttpRequests

open Leano.Lib

variable {curl : Curl} {s t : State curl} {events : List Event} {tr : Transfer}
  {lpUrl lpFile : Option Bytes} {opened : Bool} {name url file : Bytes}

def Transfer.body (tr : Transfer) : Bytes := (chunksOf tr.events).flatMap Chunk.data

def extended (files : Bytes → Option Bytes) (file body : Bytes) : Bytes → Option Bytes :=
  Function.update files file (some ((files file).getD [] ++ body))

/-- `DownloadFile` returns true and has stored the body, and nothing else. -/
def Stores (s : State curl) (lpUrl lpFile : Option Bytes) (opened : Bool) (tr : Transfer) : Prop :=
  ∃ file t, lpFile = some file ∧ s.downloadFile lpUrl lpFile opened tr = some (true, t) ∧
    t.files = extended s.files file tr.body

def State.Watched (s : State curl) (events : List Event) : Prop :=
  s.callback = true ∨ ∀ e ∈ events, e ≠ .progress

def SameFile (files : Bytes → Option Bytes) (url file : Bytes) : Prop :=
  url = file ∨ files url ≠ none ∧ files file ≠ none

section files

variable {files : Bytes → Option Bytes}

theorem extended_nil (there : files file ≠ none) : extended files file [] = files := by
  obtain ⟨old, hold⟩ := Option.ne_none_iff_exists'.mp there
  rw [extended, hold, Option.getD_some, List.append_nil, ← hold, Function.update_eq_self]

theorem extended_eq_iff : extended files url [] = extended files file [] ↔
    SameFile files url file := by
  constructor
  · intro eq
    by_cases same : url = file
    · exact .inl same
    · refine .inr ⟨?_, ?_⟩
      · have at_url := congrFun eq url
        simp only [extended, Function.update_self, Function.update_of_ne same] at at_url
        rw [← at_url]
        exact Option.some_ne_none _
      · have at_file := congrFun eq file
        simp only [extended, Function.update_self, Function.update_of_ne (Ne.symm same)] at at_file
        rw [at_file]
        exact Option.some_ne_none _
  · rintro (rfl | ⟨url, file⟩)
    · rfl
    · rw [extended_nil url, extended_nil file]

end files

section delivery

theorem Chunk.consumes_nothing {c : Chunk} : 0 = c.nSize * c.nMemByte ↔ c.data = [] := by
  rw [← c.length, eq_comm, List.length_eq_zero_iff]

theorem writeCallback_download (download : s.flag = .rDownload) (c : Chunk) (written : Nat) :
    (s.writeCallback c written).1 = 0 := by
  unfold State.writeCallback
  rw [download]
  cases s.fp <;> rfl

theorem deliver_consumed {r : Bool × State curl} (download : s.flag = .rDownload)
    (h : s.deliver events = some r) :
    r.1 = true ↔ ∀ c ∈ chunksOf events, c.data = [] := by
  induction events generalizing s with
  | nil => cases h; exact ⟨fun _ _ hc => absurd hc List.not_mem_nil, fun _ => rfl⟩
  | cons e events ih =>
    cases e with
    | progress => exact ih download (State.deliver_progress h)
    | chunk c written =>
      have flag := (State.writeCallback_frame (s := s) c written).flag.trans download
      have rest : chunksOf (.chunk c written :: events) = c :: chunksOf events := rfl
      have told := State.deliver_chunk h
      simp only [writeCallback_download download, ne_eq, Chunk.consumes_nothing] at told
      rw [rest, List.forall_mem_cons]
      obtain ⟨empty, h⟩ | ⟨full, rfl⟩ := told
      · exact (ih (s := State.report _ c _) flag h).trans (iff_and_self.mpr fun _ => empty)
      · exact ⟨fun all => Bool.noConfusion all, fun all => absurd all.1 full⟩

theorem deliver_files {r : Bool × State curl} (download : s.flag = .rDownload)
    (fp : s.fp = some name) (there : s.files name ≠ none)
    (empty : ∀ c ∈ chunksOf events, c.data = []) (h : s.deliver events = some r) :
    r.2.files = s.files := by
  induction events generalizing s with
  | nil => cases h; rfl
  | cons e events ih =>
    cases e with
    | progress => exact ih download fp there empty (State.deliver_progress h)
    | chunk c written =>
      obtain ⟨nothing, rest⟩ := List.forall_mem_cons.mp empty
      have frame := State.writeCallback_frame (s := s) c written
      have same : (s.writeCallback c written).2.files = s.files := by
        unfold State.writeCallback
        rw [download, fp]
        simp only [State.fwrite, nothing, List.take_nil]
        exact extended_nil there
      obtain ⟨-, h⟩ | ⟨-, rfl⟩ := State.deliver_chunk h
      · have tail := ih (s := State.report _ c _) (frame.flag.trans download)
          (frame.fp.trans fp) (same.symm ▸ there) rest h
        exact tail.trans same
      · exact same

theorem deliver_watched {o : Options} (options : s.options = some o)
    (reports : o.noProgress = false) (download : s.flag = .rDownload)
    (h : s.deliver events = some (true, t)) : s.Watched events := by
  by_cases given : s.callback = true
  · exact .inl given
  refine .inr fun e he => ?_
  induction events generalizing s with
  | nil => exact absurd he List.not_mem_nil
  | cons e' events ih =>
    cases e' with
    | progress =>
      obtain ⟨s', same, -⟩ := Option.bind_eq_some_iff.mp h
      have turned : s.options.any (fun o => !o.noProgress) = true := by
        rw [options, Option.any_some, reports]
        rfl
      have null : s.progressCallback = none := if_pos ⟨turned, Bool.eq_false_iff.mpr given⟩
      rw [null] at same
      cases same
    | chunk c written =>
      have frame := State.writeCallback_frame (s := s) c written
      obtain ⟨-, h⟩ | ⟨-, eq⟩ := State.deliver_chunk h
      · rcases List.mem_cons.mp he with rfl | he
        · exact Event.noConfusion
        · refine ih (s := State.report _ c _) ?_ (frame.flag.trans download) h ?_ he
          · rw [← options]
            exact congrArg (Option.map curl.options) frame.pCurl
          · exact fun yes => given (frame.callback.symm.trans yes)
      · cases eq

end delivery

section performing

theorem toDownload_files (url : Bytes) : (s.toDownload url).files = extended s.files url [] := by
  rw [extended, List.append_nil]
  rfl

theorem toDownload_there (url : Bytes) : (s.toDownload url).files url ≠ none := by
  rw [toDownload_files, extended, Function.update_self]
  exact Option.some_ne_none _

theorem body_eq_nil (empty : ∀ c ∈ chunksOf tr.events, c.data = []) : tr.body = [] :=
  List.flatMap_eq_nil_iff.mpr empty

theorem perform_stores {files : Bytes → Option Bytes} (download : s.flag = .rDownload)
    (fp : s.fp = some name) (there : s.files name ≠ none)
    (reports : ∀ o, s.options = some o → o.noProgress = false) (sent : tr.result = .ok) :
    (∃ t, s.perform tr = some (true, t) ∧ t.files = files) ↔
      s.files = files ∧ s.options ≠ none ∧ (∀ c ∈ chunksOf tr.events, c.data = []) ∧
        s.Watched tr.events := by
  cases ho : s.options with
  | none =>
    constructor
    · rintro ⟨t, h, -⟩
      rw [State.perform, ho] at h
      cases h
    · exact fun h => absurd rfl h.2.1
  | some o =>
    constructor
    · rintro ⟨t, h, rfl⟩
      rw [State.perform, ho] at h
      obtain ⟨⟨all, u⟩, hd, eq⟩ := Option.map_eq_some_iff.mp h
      obtain ⟨ok, rfl⟩ := Prod.mk.inj eq
      have all : all = true := by
        cases all with
        | true => rfl
        | false => cases of_decide_eq_true ok
      subst all
      have empty := (deliver_consumed (s := s.start o) download hd).mp rfl
      refine ⟨?_, Option.some_ne_none _, empty, ?_⟩
      · exact (deliver_files (s := s.start o) download fp there empty hd).symm
      · exact deliver_watched (s := s.start o) ho (reports o ho) download hd
    · rintro ⟨rfl, -, empty, watched⟩
      obtain ⟨⟨all, u⟩, hd⟩ := deliver_defined (s := s.start o) watched
      have all : all = true := (deliver_consumed (s := s.start o) download hd).mpr empty
      subst all
      refine ⟨{ u with curlCode := tr.result }, ?_, ?_⟩
      · rw [State.perform, ho]
        simp only [hd, Option.map_some, if_true, sent, decide_true]
      · exact deliver_files (s := s.start o) download fp there empty hd

theorem stores_of_both (sent : tr.result = .ok) : Stores s (some url) (some file) true tr ↔
    SameFile s.files url file ∧ s.pCurl ≠ none ∧ (∀ c ∈ chunksOf tr.events, c.data = []) ∧
      s.Watched tr.events := by
  have named : Stores s (some url) (some file) true tr ↔
      ∃ t, (s.toDownload url).perform tr = some (true, t) ∧
        t.files = extended s.files file tr.body := by
    constructor
    · rintro ⟨_, t, ⟨⟩, h, files⟩
      exact ⟨t, h, files⟩
    · rintro ⟨t, h, files⟩
      exact ⟨file, t, rfl, h, files⟩
  have reports (o : Options) (ho : (s.toDownload url).options = some o) : o.noProgress = false := by
    rw [State.options_toDownload] at ho
    obtain ⟨o', -, rfl⟩ := Option.map_eq_some_iff.mp ho
    rfl
  have handle : (s.toDownload url).options ≠ none ↔ s.pCurl ≠ none := by
    rw [State.options_toDownload, State.options, Option.map_map, ne_eq, Option.map_eq_none_iff]
  rw [named, perform_stores (s := s.toDownload url) rfl rfl (toDownload_there url) reports sent,
    handle, toDownload_files]
  constructor
  · rintro ⟨files, live, empty, watched⟩
    rw [body_eq_nil empty] at files
    exact ⟨extended_eq_iff.mp files, live, empty, watched⟩
  · rintro ⟨same, live, empty, watched⟩
    rw [body_eq_nil empty]
    exact ⟨extended_eq_iff.mpr same, live, empty, watched⟩

end performing

/-- `DownloadFile` does what its name says where nothing is downloaded, into the file that the URL
names. -/
theorem stores_iff (sent : tr.result = .ok) : Stores s lpUrl lpFile opened tr ↔
    (∃ url file, lpUrl = some url ∧ lpFile = some file ∧ SameFile s.files url file) ∧
      opened = true ∧ s.pCurl ≠ none ∧ (∀ c ∈ chunksOf tr.events, c.data = []) ∧
      s.Watched tr.events := by
  constructor
  · intro h
    obtain ⟨file, t, rfl, ht, files⟩ := h
    obtain ⟨url, _, rfl, ⟨⟩, rfl, -⟩ | ⟨url, eq⟩ | eq := State.downloadFile_cases ht
    · obtain ⟨same, rest⟩ := (stores_of_both sent).mp ⟨file, t, rfl, ht, files⟩
      exact ⟨⟨url, file, rfl, rfl, same⟩, rfl, rest⟩
    · cases eq
    · cases eq
  · rintro ⟨⟨url, file, rfl, rfl, same⟩, rfl, rest⟩
    exact (stores_of_both sent).mpr ⟨same, rest⟩

theorem stores_iff_of_empty : Stores (State.init (some Curl.plain.init) fun _ => none)
    (some [102]) (some [102]) true ⟨[], .ok⟩ :=
  (stores_iff rfl).mpr ⟨⟨[102], [102], rfl, rfl, .inl rfl⟩, rfl, Option.some_ne_none _,
    fun _ hc => absurd hc List.not_mem_nil, .inr fun _ he => absurd he List.not_mem_nil⟩

/-- One byte that is written, from the URL `u` to the file `f`. -/
theorem byte_stored_by_url :
    let s : State Curl.plain := State.init (some Curl.plain.init) fun _ => none
    let tr : Transfer := ⟨[.chunk ⟨1, 1, [100], rfl⟩ 1], .ok⟩
    (∃ t, s.downloadFile (some [117]) (some [102]) true tr = some (false, t) ∧
      t.files [117] = some [100] ∧ t.files [102] = none) ∧
    ¬Stores s (some [117]) (some [102]) true tr := by
  refine ⟨⟨_, rfl, rfl, rfl⟩, ?_⟩
  rintro ⟨file, t, -, h, -⟩
  cases h

end Leano.HttpRequests
