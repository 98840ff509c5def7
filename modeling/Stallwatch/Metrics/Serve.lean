import Stallwatch.Base.Http
import Stallwatch.Metrics.Cap

/-! The scrapes that are answered over HTTP: one request, one reply, and the connection is
closed. -/
namespace Stallwatch.Metrics

open Text Utf8

/-- A line that ends the head of a request. -/
def endsHead (line : List Char) : Bool := line = [] ∨ line = ['\r', '\n'] ∨ line = ['\n']

theorem splitLine_shorter {input : List UInt8} (some : input ≠ []) :
    (splitLine input).2.length < input.length := by
  induction input with
  | nil => exact absurd rfl some
  | cons b input ih =>
    rw [splitLine]
    split
    · exact Nat.lt_succ_self _
    · by_cases none : input = []
      · subst none
        exact Nat.lt_succ_self _
      · exact (ih none).trans (Nat.lt_succ_self _)

theorem readLine_shorter {a rest : Arrival} {line : List Char} (read : a.readLine = .ok (line, rest))
    (goes : endsHead line ≠ true) : rest.received.length < a.received.length := by
  unfold Arrival.readLine at read
  dsimp only at read
  split at read
  · split at read
    · rename_i text decoded
      cases read
      refine splitLine_shorter fun none => goes ?_
      rw [none] at decoded
      cases decoded
      rfl
    · cases read
  · cases read

/-- The header loop, and how it ends. -/
def drain (a : Arrival) : Except Arrival.Failure Unit :=
  match _read : a.readLine with
  | .error e => .error e
  | .ok (line, rest) => if _goes : endsHead line = true then .ok () else drain rest
termination_by a.received.length
decreasing_by exact readLine_shorter _read _goes

structure Response where
  status : String
  ctype : String
  body : List Char

section

variable (f : Rounding) (host : Host) (sweep : Cgroup.Sweep) (maxSeries : ℕ)

def route (method path : List Char) : Outcome Empty Response :=
  if method = "GET".toList then
    if path = "/metrics".toList then do
      let body ← scrape f host sweep maxSeries
      return ⟨"200 OK", "text/plain; version=0.0.4; charset=utf-8", body⟩
    else if path = "/".toList then
      .ok ⟨"200 OK", "text/html; charset=utf-8",
        "<html><body><a href=\"/metrics\">metrics</a></body></html>\n".toList⟩
    else .ok ⟨"404 Not Found", "text/plain; charset=utf-8", "not found\n".toList⟩
  else .ok ⟨"405 Method Not Allowed", "text/plain; charset=utf-8", "method not allowed\n".toList⟩

/-- The query is no part of the path. -/
def pathOf (target : List Char) : List Char := target.takeWhile (· ≠ '?')

def methodOf (requestLine : List Char) : List Char := (splitWhitespace requestLine).head?.getD []

def targetOf (requestLine : List Char) : List Char := (splitWhitespace requestLine).tail.head?.getD []

/-- The method and the target are the first words of the line, where there are any. -/
def respond (requestLine : List Char) : Outcome Empty Response :=
  route f host sweep maxSeries (methodOf requestLine) (pathOf (targetOf requestLine))

end

/-- `write!`. -/
def Response.text (r : Response) : List Char :=
  "HTTP/1.1 ".toList ++ r.status.toList ++ "\r\nContent-Type: ".toList ++ r.ctype.toList ++
    "\r\nContent-Length: ".toList ++ decimal (bytes r.body).length ++
    "\r\nConnection: close\r\n\r\n".toList ++ r.body

/-- The reply, and how the reading of the head has ended when it is written. -/
structure Served where
  reply : List UInt8
  head : Except Arrival.Failure Unit

/-- `serve_metrics`, where the reply can be written. -/
def serveMetrics (f : Rounding) (host : Host) (sweep : Cgroup.Sweep) (maxSeries : ℕ) (a : Arrival) :
    Outcome Empty Served :=
  match a.readLine with
  | .error e => .ok ⟨[], .error e⟩
  | .ok (requestLine, rest) => do
    let r ← respond f host sweep maxSeries requestLine
    return ⟨bytes r.text, drain rest⟩

/-- The reply as a client is meant to read it. -/
def Response.message (r : Response) : Http.Message where
  start := "HTTP/1.1 ".toList ++ r.status.toList
  fields := [⟨"Content-Type".toList, r.ctype.toList⟩,
    ⟨"Content-Length".toList, decimal (bytes r.body).length⟩, ⟨"Connection".toList, "close".toList⟩]
  body := bytes r.body

/-- Nothing in the head breaks it. -/
structure Response.Plain (r : Response) : Prop where
  status : '\n' ∉ r.status.toList
  ctype : '\n' ∉ r.ctype.toList
  trimmed : trim r.ctype.toList = r.ctype.toList

theorem head_three (start : List Char) (a b c : Http.Field) : Http.head start [a, b, c] =
    start ++ Http.crlf ++ a.line ++ Http.crlf ++ b.line ++ Http.crlf ++ c.line ++ Http.crlf ++
      Http.crlf := by
  simp [Http.head]

theorem text_head (r : Response) : r.text = Http.head r.message.start r.message.fields ++ r.body := by
  have first : "\r\nContent-Type: ".toList = Http.crlf ++ ("Content-Type".toList ++ ": ".toList) :=
    by decide
  have second : "\r\nContent-Length: ".toList =
      Http.crlf ++ ("Content-Length".toList ++ ": ".toList) := by decide
  have third : "\r\nConnection: close\r\n\r\n".toList =
      Http.crlf ++ ("Connection".toList ++ (": ".toList ++
        ("close".toList ++ (Http.crlf ++ Http.crlf)))) := by
    decide
  unfold Response.text Response.message
  rw [head_three]
  simp only [Http.Field.line, first, second, third, List.append_assoc]

theorem text_written (r : Response) : bytes r.text = Http.write r.message := by
  rw [text_head, bytes_append]
  rfl

theorem message_plain {r : Response} (plain : r.Plain) : r.message.Plain where
  start := by
    have version : '\n' ∉ "HTTP/1.1 ".toList := by decide
    exact fun member => (List.mem_append.mp member).elim version plain.status
  fields := by
    have named : '\n' ∉ "Content-Type".toList ∧ ':' ∉ "Content-Type".toList := by decide
    have counted : '\n' ∉ "Content-Length".toList ∧ ':' ∉ "Content-Length".toList := by decide
    have word := decimal_word (bytes r.body).length
    have ctype : Http.Field.Plain ⟨"Content-Type".toList, r.ctype.toList⟩ :=
      ⟨named.1, named.2, plain.ctype, plain.trimmed⟩
    have length : Http.Field.Plain ⟨"Content-Length".toList, decimal (bytes r.body).length⟩ :=
      ⟨counted.1, counted.2, word_line word, trim_word word⟩
    have connection : Http.Field.Plain ⟨"Connection".toList, "close".toList⟩ :=
      ⟨by decide, by decide, by decide, by decide⟩
    exact List.forall_mem_cons.mpr ⟨ctype, List.forall_mem_cons.mpr
      ⟨length, List.forall_mem_cons.mpr ⟨connection, List.forall_mem_nil _⟩⟩⟩
  length := by
    have found : (r.message.fields.find? fun h => eqIgnoreAsciiCase h.name "content-length".toList) =
        some ⟨"Content-Length".toList, decimal (bytes r.body).length⟩ := by rfl
    rw [Http.contentLength, found]
    exact Http.number_decimal _

section Routed

variable {f : Rounding} {host : Host} {sweep : Cgroup.Sweep} {maxSeries : ℕ}

theorem route_plain {method path : List Char} {r : Response}
    (routed : route f host sweep maxSeries method path = .ok r) : r.Plain := by
  unfold route at routed
  split at routed
  · split at routed
    · obtain ⟨body, _, returned⟩ := Outcome.bind_eq_ok.mp routed
      cases returned
      have exposition : Response.Plain ⟨"200 OK", "text/plain; version=0.0.4; charset=utf-8", []⟩ :=
        ⟨by decide, by decide, by decide⟩
      exact ⟨exposition.status, exposition.ctype, exposition.trimmed⟩
    · split at routed
      · cases routed
        exact ⟨by decide, by decide, by decide⟩
      · cases routed
        exact ⟨by decide, by decide, by decide⟩
  · cases routed
    exact ⟨by decide, by decide, by decide⟩

/-- What the reply to a method and a path is. -/
structure Routed (f : Rounding) (host : Host) (sweep : Cgroup.Sweep) (maxSeries : ℕ)
    (method path : List Char)
    (r : Response) : Prop where
  done : r.status = "200 OK" ↔ method = "GET".toList ∧ (path = "/metrics".toList ∨ path = "/".toList)
  missing : r.status = "404 Not Found" ↔ method = "GET".toList ∧ path ≠ "/metrics".toList ∧
    path ≠ "/".toList
  refused : r.status = "405 Method Not Allowed" ↔ method ≠ "GET".toList
  exposition : method = "GET".toList → path = "/metrics".toList →
    scrape f host sweep maxSeries = .ok r.body

theorem routed {method path : List Char} {r : Response}
    (routed : route f host sweep maxSeries method path = .ok r) :
    Routed f host sweep maxSeries method path r := by
  have none : "404 Not Found" ≠ "200 OK" ∧ "405 Method Not Allowed" ≠ "200 OK" := by decide
  have apart : "200 OK" ≠ "404 Not Found" ∧ "405 Method Not Allowed" ≠ "404 Not Found" := by decide
  have taken : "200 OK" ≠ "405 Method Not Allowed" ∧ "404 Not Found" ≠ "405 Method Not Allowed" :=
    by decide
  unfold route at routed
  split at routed
  · rename_i get
    split at routed
    · rename_i metrics
      obtain ⟨body, scraped, returned⟩ := Outcome.bind_eq_ok.mp routed
      cases returned
      exact ⟨iff_of_true rfl ⟨get, .inl metrics⟩, iff_of_false apart.1 fun claimed => claimed.2.1 metrics,
        iff_of_false taken.1 fun claimed => claimed get, fun _ _ => scraped⟩
    · rename_i metrics
      split at routed
      · rename_i root
        cases routed
        exact ⟨iff_of_true rfl ⟨get, .inr root⟩, iff_of_false apart.1 fun claimed => claimed.2.2 root,
          iff_of_false taken.1 fun claimed => claimed get, fun _ same => absurd same metrics⟩
      · rename_i root
        cases routed
        exact ⟨iff_of_false none.1 fun claimed => claimed.2.elim metrics root,
          iff_of_true rfl ⟨get, metrics, root⟩, iff_of_false taken.2 fun claimed => claimed get,
          fun _ same => absurd same metrics⟩
  · rename_i other
    cases routed
    exact ⟨iff_of_false none.2 fun claimed => other claimed.1,
      iff_of_false apart.2 fun claimed => other claimed.1, iff_of_true rfl other,
      fun same => absurd same other⟩

end Routed

section Read

theorem drain_line {a rest : Arrival} {line : List Char} (read : a.readLine = .ok (line, rest)) :
    drain a = if endsHead line = true then .ok () else drain rest := by
  rw [drain]
  split
  · rename_i e failed
    cases read.symm.trans failed
  · rename_i line' rest' found
    cases read.symm.trans found
    rfl

/- The server waits in vain only where the client leaves its side open. -/
theorem drain_timedOut {a : Arrival} (waited : drain a = .error .timedOut) : a.closed = false := by
  fun_induction drain a with
  | case1 a e failed =>
    cases waited
    exact Arrival.readLine_timedOut failed
  | case2 => cases waited
  | case3 a line rest read goes ih => exact (Arrival.readLine_closed read).symm.trans (ih waited)

/-- The fields are read up to the blank line behind them, whatever comes after it. -/
theorem drain_head {fields : List Http.Field} (plain : ∀ h ∈ fields, h.Plain) (rest : List UInt8)
    (closed : Bool) :
    drain ⟨bytes (fields.flatMap (fun h => h.line ++ Http.crlf) ++ Http.crlf) ++ rest, closed⟩ =
      .ok () := by
  induction fields with
  | nil =>
    have clean : '\n' ∉ ['\r'] := by decide
    exact (drain_line (Arrival.readLine_written clean rest closed)).trans (if_pos rfl)
  | cons h fields ih =>
    obtain ⟨here, others⟩ := List.forall_mem_cons.mp plain
    have clean : '\n' ∉ h.line ++ ['\r'] := by simp [here.line_clean]
    have goes : endsHead (h.line ++ ['\r'] ++ ['\n']) ≠ true := by
      have longer : 4 ≤ (h.line ++ ['\r'] ++ ['\n']).length := by
        simp [Http.Field.line]
        omega
      intro ends
      simp only [endsHead, decide_eq_true_eq] at ends
      rcases ends with ends | ends | ends <;> rw [ends] at longer <;> simp at longer
    have shape : bytes ((h :: fields).flatMap (fun h => h.line ++ Http.crlf) ++ Http.crlf) ++ rest =
        bytes (h.line ++ ['\r'] ++ ['\n']) ++
          (bytes (fields.flatMap (fun h => h.line ++ Http.crlf) ++ Http.crlf) ++ rest) := by
      simp [Http.crlf]
    rw [shape, drain_line (Arrival.readLine_written clean _ closed), if_neg goes]
    exact ih others

end Read

/-- The first line of a request. -/
def requestStart (method target : List Char) : List Char :=
  method ++ [' '] ++ target ++ [' '] ++ "HTTP/1.1".toList

section Answered

variable (f : Rounding) (host : Host) (sweep : Cgroup.Sweep) (maxSeries : ℕ)

/-- A request that is written as it should be is answered for its method and its path alone, as soon
as its head has come: whatever is behind it, and without waiting for the client to close. -/
theorem request_answered {method target : List Char} (named : IsWord method) (aimed : IsWord target)
    {fields : List Http.Field} (plain : ∀ h ∈ fields, h.Plain) (behind : List UInt8) (closed : Bool) :
    serveMetrics f host sweep maxSeries
        ⟨bytes (Http.head (requestStart method target) fields) ++ behind, closed⟩ = (do
      let r ← route f host sweep maxSeries method (pathOf target)
      return ⟨Http.write r.message, .ok ()⟩) := by
  have version : IsWord "HTTP/1.1".toList := by simp [IsWord, isWhitespace]
  have ends : Blank Http.crlf := by simp [Blank, Http.crlf, isWhitespace]
  have clean : '\n' ∉ requestStart method target ++ ['\r'] := by
    simp only [requestStart, List.mem_append, not_or]
    exact ⟨⟨⟨⟨⟨word_line named, by decide⟩, word_line aimed⟩, by decide⟩, word_line version⟩, by decide⟩
  have shape : bytes (Http.head (requestStart method target) fields) ++ behind =
      bytes (requestStart method target ++ ['\r'] ++ ['\n']) ++
        (bytes (fields.flatMap (fun h => h.line ++ Http.crlf) ++ Http.crlf) ++ behind) := by
    simp [Http.head, Http.crlf]
  have words : splitWhitespace (requestStart method target ++ ['\r'] ++ ['\n']) =
      [method, target, "HTTP/1.1".toList] := by
    rw [List.append_assoc]
    exact words_three named aimed version ends
  have asked : respond f host sweep maxSeries (requestStart method target ++ ['\r'] ++ ['\n']) =
      route f host sweep maxSeries method (pathOf target) := by
    rw [respond, methodOf, targetOf, words]
    rfl
  rw [shape]
  simp only [serveMetrics, Arrival.readLine_written clean, asked, drain_head plain, text_written]

theorem route_panic {method path : List Char} : route f host sweep maxSeries method path = .panic ↔
    method = "GET".toList ∧ path = "/metrics".toList ∧ scrape f host sweep maxSeries = .panic := by
  unfold route
  split
  · rename_i get
    split
    · rename_i metrics
      exact Outcome.bind_ok_eq_panic.trans ⟨fun failed => ⟨get, metrics, failed⟩, fun all => all.2.2⟩
    · rename_i metrics
      refine iff_of_false ?_ fun all => metrics all.2.1
      split <;> exact nofun
  · rename_i other
    exact iff_of_false nofun fun all => other all.1

/-- Whatever a client sends: without a line that is text nothing is written. Else one whole
message is, for the first two words of the line, and a client that reads it stops at its end.
The server waits in vain only if the client stays, and the thread panics only with a scrape. -/
theorem arrival_answered (a : Arrival) :
    (∀ e, a.readLine = .error e → serveMetrics f host sweep maxSeries a = .ok ⟨[], .error e⟩) ∧
      ∀ line rest, a.readLine = .ok (line, rest) →
        (∀ s, serveMetrics f host sweep maxSeries a = .ok s →
          (s.head = .error .timedOut → a.closed = false) ∧
            ∃ r, Routed f host sweep maxSeries (methodOf line) (pathOf (targetOf line)) r ∧
              ∀ more, Http.read (s.reply ++ more) = some (r.message, more)) ∧
        (serveMetrics f host sweep maxSeries a = .panic ↔ methodOf line = "GET".toList ∧
          pathOf (targetOf line) = "/metrics".toList ∧ scrape f host sweep maxSeries = .panic) := by
  refine ⟨fun e failed => by simp only [serveMetrics, failed],
    fun line rest read => ⟨fun s served => ?_, ?_⟩⟩
  · simp only [serveMetrics, read] at served
    obtain ⟨r, routes, returned⟩ := Outcome.bind_eq_ok.mp served
    cases returned
    refine ⟨fun waited => (Arrival.readLine_closed read).symm.trans (drain_timedOut waited), r, routed routes,
      fun more => ?_⟩
    rw [text_written]
    exact Http.read_write (message_plain (route_plain routes)) more
  · simp only [serveMetrics, read]
    exact Outcome.bind_ok_eq_panic.trans (route_panic f host sweep maxSeries)

end Answered

/-- A scrape of nothing, by a client that stays and has begun another request. -/
theorem request_answered_prometheus :
    serveMetrics .exact bare ⟨[], fun _ _ => none⟩ 500
        ⟨bytes (Http.head (requestStart "GET".toList "/metrics?x".toList)
          [⟨"Host".toList, "localhost".toList⟩]) ++ bytes "GET ".toList, false⟩ = (do
      let r ← route .exact bare ⟨[], fun _ _ => none⟩ 500 "GET".toList (pathOf "/metrics?x".toList)
      return ⟨Http.write r.message, .ok ()⟩) := by
  have named : IsWord "GET".toList := by simp [IsWord, isWhitespace]
  have aimed : IsWord "/metrics?x".toList := by simp [IsWord, isWhitespace]
  have plain : Http.Field.Plain ⟨"Host".toList, "localhost".toList⟩ :=
    ⟨by decide, by decide, by decide, by decide⟩
  exact request_answered _ _ _ _ named aimed (List.forall_mem_singleton.mpr plain) _ _

end Stallwatch.Metrics
