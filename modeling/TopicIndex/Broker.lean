import TopicIndex.Request
import TopicIndex.Log.Filter

/-!
# A small broker

Clients subscribe to topic filters and receive what is published under the topics these cover. The
broker keeps its routes in an index of client names, and a log of their changes.
`Demonstration.run` shows it in a household of three clients.
-/

namespace TopicIndex

open Log

structure Delivery where
  client : String
  topic : String
  payload : String
deriving DecidableEq

namespace Delivery

/-- What the client sees of it. -/
def line (d : Delivery) : String := d.topic ++ " -> " ++ d.payload

end Delivery

structure Broker where
  routes : Index String
  log : List Record

namespace Broker

inductive Error where
  | topic (e : Topic.Error)
  | misplaced (m : Misplacement)

def Error.message : Error → String
  | topic e => e.message
  | misplaced m => m.message

def empty : Broker where
  routes := .empty .mqtt .strict
  log := []

/-- Changes the routes and logs the event. -/
def reroute (b : Broker) (c : Change String) : Except Error Broker :=
  match b.routes.apply c with
  | .ok (routes, event) => .ok { routes := routes, log := b.log ++ [event.record] }
  | .error m => .error (.misplaced m)

def subscribed (client filter : String) : Record where
  severity := .info
  target := "broker_routing"
  message := "Subscribed"
  fields := [("client_id", .text client), ("pattern", .bare filter)]

def subscribe (b : Broker) (client text : String) : Except Error Broker :=
  match Topic.parse .filter text with
  | .error e => .error (.topic e)
  | .ok filter =>
    (b.reroute (.insert filter client)).map fun b =>
      { b with log := b.log ++ [subscribed client filter] }

/-- Delivers to every client with a matching subscription, once each. -/
def publish (b : Broker) (text payload : String) : Except Error (List Delivery) :=
  match Topic.parse .name text with
  | .error e => .error (.topic e)
  | .ok topic => .ok ((b.routes.matching topic).map (⟨·, topic, payload⟩))

end Broker

/-- A topic as given by its publisher, and who received it. -/
structure Publication where
  topic : String
  deliveries : List Delivery

namespace Publication

def line (p : Publication) : String :=
  "published " ++ p.topic ++ " to " ++ toString p.deliveries.length ++ " subscriber(s)"

end Publication

/-- What a demonstration shows, in this order. -/
structure Demonstration where
  subscribing : List Record
  publications : List Publication
  /-- Clients that could receive something from the kitchen. -/
  interest : List String
  outline : String
  closing : List Record

namespace Demonstration

def household : List (String × String) :=
  [("dashboard", "home/+/temperature"), ("archiver", "home/#"), ("kitchen-panel", "home/kitchen/+")]

def readings : List (String × String) :=
  [("home/kitchen/temperature", "21.5"), ("home//livingroom/temperature/", "20.1"),
    ("home/garage/door", "open"), ("office/printer", "idle")]

def run : Except Broker.Error Demonstration := do
  let b ← household.foldlM (fun b (client, filter) => b.subscribe client filter) Broker.empty
  let publications ← readings.mapM fun (topic, payload) =>
    (b.publish topic payload).map (⟨topic, ·⟩)
  let closed ← { b with log := [] }.reroute .reset
  return {
    subscribing := b.log
    publications := publications
    interest := b.routes.overlapping "home/kitchen/#"
    outline := b.routes.display
    closing := closed.log }

def log (d : Demonstration) : List Record := d.subscribing ++ d.closing

def deliveries (d : Demonstration) : List Delivery := d.publications.flatMap (·.deliveries)

/-- All that is written, with the log records that a filter selects. -/
def lines (d : Demonstration) (filter : Filter) : List String :=
  (filter.select d.subscribing).map (·.line) ++
    d.publications.flatMap (fun p =>
      p.line :: p.deliveries.map fun r => "[" ++ r.client ++ "] " ++ r.line) ++
    ["kitchen interest: [" ++ Text.listed (d.interest.map Text.quote) ++ "]", d.outline] ++
    (filter.select d.closing).map (·.line)

end Demonstration

end TopicIndex
