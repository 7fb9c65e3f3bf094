import TopicIndex.Main
import TopicIndex.Shared
import TopicIndex.Dialect.Json
import TopicIndex.Proofs.Overlap
import TopicIndex.Proofs.Tidy
import TopicIndex.Proofs.Rearranged
import TopicIndex.Proofs.Extensional
import TopicIndex.Proofs.Recovery
import TopicIndex.Proofs.Agreement
import TopicIndex.Proofs.Clients
import TopicIndex.Proofs.Canonical
import TopicIndex.Proofs.Grammar
import TopicIndex.Proofs.Delivery
import TopicIndex.Proofs.Erasure
import TopicIndex.Proofs.First
import TopicIndex.Proofs.Visits
import TopicIndex.Proofs.Behind
import TopicIndex.Proofs.Encoding
import TopicIndex.Proofs.Picture
